import TreeScript.Proofs.Effects
import TreeScript.Proofs.Variables

/-!
# Procedures after a reset

A run changes what the variables of a procedure hold and nothing else of it, so a reset gives back the
same procedure whatever was run before.  That procedure differs from the one that was read in the room
that its variables have reserved, and the room cannot be seen: look-ups, assignments and bindings go by
the entries alone.

- `Request`, `afterAll`, `Outcome`, `outcomes`: runs one after the other, and what can be seen of them.
- `Machine.Alike`, `Machine.Alike.perform`: states that differ in the room of the variables only.
- `Alike.run`, `Alike.outcomes_eq`: procedures that differ in it give the same outcomes.
- `IsFresh`, `isFresh_of_parse`: a procedure that was read holds what it declares.
- `reset_afterAll`, `outcomes_reset`: a reset procedure, and a fresh one.
-/

namespace TreeScript

open KeyedList

/-! ### The room of a scope cannot be seen -/

section Room

variable {a b : Scope}

theorem find?_eq_of_items_eq (h : a.items = b.items) (name : String) : a.find? name = b.find? name := by
  unfold find?
  rw [h]

theorem contains_eq_of_items_eq (h : a.items = b.items) (name : String) :
    a.contains name = b.contains name := by
  unfold contains
  rw [h]

theorem items_write_of_items_eq (h : a.items = b.items) (name : String) (scalar : Scalar) :
    (Machine.write a name scalar).items = (Machine.write b name scalar).items := by
  unfold Machine.write
  rw [contains_eq_of_items_eq h]
  split
  · simp only [update, h]
  · simp only [KeyedList.insert, h]

end Room

namespace Machine

/-- States that differ in the room of the procedure's variables only. -/
structure Alike (m n : Machine) : Prop where
  items_eq : m.locals.items = n.locals.items
  caller_eq : m.caller = n.caller
  calls_eq : m.calls = n.calls

variable {policy : WritePolicy} {m n : Machine}

theorem Alike.lookup_eq (h : Alike m n) (name : String) :
    (m.scopes policy).lookup name = (n.scopes policy).lookup name := by
  have hfind := find?_eq_of_items_eq h.items_eq name
  cases policy with
  | callerFirst =>
    show (m.caller.find? name <|> m.locals.find? name) = (n.caller.find? name <|> n.locals.find? name)
    rw [hfind, h.caller_eq]
  | localFirst =>
    show (m.locals.find? name <|> m.caller.find? name) = (n.locals.find? name <|> n.caller.find? name)
    rw [hfind, h.caller_eq]

theorem Alike.writesCaller_eq (h : Alike m n) (name : String) :
    m.writesCaller policy name = n.writesCaller policy name := by
  unfold writesCaller
  rw [contains_eq_of_items_eq h.items_eq, h.caller_eq]

theorem Alike.perform (h : Alike m n) (effect : Effect) :
    Alike (m.perform policy effect) (n.perform policy effect) := by
  cases effect with
  | call call =>
    refine ⟨h.items_eq, h.caller_eq, ?_⟩
    show m.calls ++ [call] = n.calls ++ [call]
    rw [h.calls_eq]
  | write target value =>
    show Alike (m.assign policy target value) (n.assign policy target value)
    unfold assign
    rw [h.writesCaller_eq]
    split
    · refine ⟨h.items_eq, ?_, h.calls_eq⟩
      show write m.caller target value.toScalar = write n.caller target value.toScalar
      rw [h.caller_eq]
    · exact ⟨items_write_of_items_eq h.items_eq target value.toScalar, h.caller_eq, h.calls_eq⟩

/-- Statements take alike states to alike states, up to the same error. -/
theorem Alike.stepAll (h : Alike m n) (statements : List Statement) :
    Alike (Statement.stepAll policy m statements).1 (Statement.stepAll policy n statements).1 ∧
      (Statement.stepAll policy m statements).2 = (Statement.stepAll policy n statements).2 := by
  refine Statement.stepAll_related ?_ ?_ h
  · intro s _ m n h
    exact Statement.effect_congr fun name _ => h.lookup_eq name
  · intro s _ m n effect h _
    exact h.perform effect

end Machine

namespace Procedure

/-! ### Runs one after the other -/

/-- What a procedure is run with. -/
structure Request where
  arguments : List String
  caller : Scope

/-- The procedure after several runs. -/
def afterAll (p : Procedure) : List Request → Procedure
  | [] => p
  | r :: rest => (p.after (p.run r.arguments r.caller).1).afterAll rest

/-- What can be seen of a run: how it ended, the scope of the caller, the calls, and what the variables of
the procedure hold, in the order of their names. -/
structure Outcome where
  error : Option Error
  caller : Scope
  calls : List Call
  locals : List Node

/-- The outcome of a run, given where it ended. -/
def Outcome.ofRun (result : Machine × Option Error) : Outcome :=
  ⟨result.2, result.1.caller, result.1.calls, result.1.locals.items⟩

/-- The outcomes of several runs. -/
def outcomes (p : Procedure) : List Request → List Outcome
  | [] => []
  | r :: rest =>
    .ofRun (p.run r.arguments r.caller) :: (p.after (p.run r.arguments r.caller).1).outcomes rest

/-- Procedures that differ in the room of their variables only. -/
structure Alike (p q : Procedure) : Prop where
  eq_of_locals : q = { p with locals := q.locals }
  items_eq : p.locals.items = q.locals.items

variable {p q : Procedure}

theorem items_bindAll_of_items_eq {a b : Scope} (h : a.items = b.items)
    (bindings : List (String × String)) :
    (bindings.foldl bind a).items = (bindings.foldl bind b).items := by
  induction bindings generalizing a b with
  | nil => exact h
  | cons binding rest ih => exact ih (items_write_of_items_eq h binding.1 (.infer binding.2))

theorem Alike.run (h : Alike p q) (arguments : List String) (caller : Scope) :
    Machine.Alike (p.run arguments caller).1 (q.run arguments caller).1 ∧
      (p.run arguments caller).2 = (q.run arguments caller).2 := by
  obtain ⟨hq, hitems⟩ := h
  rw [hq]
  unfold Procedure.run
  split
  · have hstart : Machine.Alike (p.start arguments caller)
        (start { p with locals := q.locals } arguments caller) :=
      ⟨items_bindAll_of_items_eq hitems _, rfl, rfl⟩
    exact hstart.stepAll p.statements
  · exact ⟨⟨hitems, rfl, rfl⟩, rfl⟩

/-- Runs of procedures that differ in the room of their variables look the same, one by one. -/
theorem Alike.outcomes_eq (h : Alike p q) (requests : List Request) :
    p.outcomes requests = q.outcomes requests := by
  induction requests generalizing p q with
  | nil => rfl
  | cons r rest ih =>
    obtain ⟨hmachine, herror⟩ := h.run r.arguments r.caller
    have hafter : Alike (p.after (p.run r.arguments r.caller).1)
        (q.after (q.run r.arguments r.caller).1) := by
      refine ⟨?_, hmachine.items_eq⟩
      rw [h.eq_of_locals]
      rfl
    unfold outcomes
    rw [ih hafter, Outcome.ofRun, Outcome.ofRun, herror, hmachine.items_eq, hmachine.caller_eq,
      hmachine.calls_eq]

/-! ### A fresh procedure -/

/-- The variables hold what they start with. -/
def IsFresh (p : Procedure) : Prop := IsStableSort p.declared p.locals.items

theorem isFresh_blank (name : String) (metadata : Option Node) (engine : Engine) :
    (blank name metadata engine).IsFresh := isStableSort_nil

theorem IsFresh.declare (h : p.IsFresh) (keyword : Keyword) (name : String) :
    (p.declare keyword name).IsFresh := by
  show IsStableSort (if !p.locals.contains name then _ else _)
    (if !p.locals.contains name then _ else _ : Scope).items
  cases p.locals.contains name with
  | true => exact h
  | false => exact IsStableSort.insert h (.leaf name keyword.initial)

theorem IsFresh.addItem {α : Type} {natives : Registry α} (h : p.IsFresh) {item : Item}
    (hadd : p.addItem natives item = .ok q) : q.IsFresh := by
  cases item with
  | declare keyword name =>
    obtain rfl := Except.ok.inj hadd
    exact h.declare keyword name
  | assign keyword name value =>
    obtain rfl := Except.ok.inj hadd
    exact h.declare keyword name
  | call native arguments position =>
    simp only [Procedure.addItem] at hadd
    split at hadd
    · obtain rfl := Except.ok.inj hadd
      exact h
    · split at hadd
      · cases hadd
      · obtain rfl := Except.ok.inj hadd
        exact h

/-- A reset of a fresh procedure changes at most the room of its variables. -/
theorem IsFresh.alike_reset (h : p.IsFresh) : Alike p p.reset :=
  ⟨rfl, h.eq (isStableSort_ofList p.declared)⟩

/-- What was run before a reset does not matter. -/
theorem reset_afterAll (p : Procedure) (requests : List Request) :
    (p.afterAll requests).reset = p.reset := by
  induction requests generalizing p with
  | nil => rfl
  | cons r rest ih =>
    rw [afterAll, ih]
    rfl

section Read

variable {α : Type} {natives : Registry α} {engine : Engine} {text : String}

theorem isKept_isFresh : IsKept natives engine IsFresh where
  blank := fun name metadata => isFresh_blank name metadata engine
  addItem := fun _ _ _ hp hadd => hp.addItem hadd

/-- **A reset gives back a fresh procedure**: whatever was run before it, all later runs look as they
would look if the procedure had just been read. -/
theorem outcomes_reset_of_parse (h : parse natives engine text = .ok p) (before later : List Request) :
    (p.afterAll before).reset.outcomes later = p.outcomes later := by
  have hfresh : p.IsFresh := isKept_isFresh.read h
  rw [reset_afterAll]
  exact (hfresh.alike_reset.outcomes_eq later).symm

end Read

theorem outcomes_reset_of_parse_sample :
    ∃ p : Procedure, parse (Registry.ofNames []) {} "[count: param x; int n: n + x;]" = .ok p ∧
      p.names = ["x", "n"] ∧
      (p.afterAll [⟨["2"], .empty⟩, ⟨[], .empty⟩]).reset.outcomes [⟨["3"], .empty⟩, ⟨["a"], .empty⟩] =
        p.outcomes [⟨["3"], .empty⟩, ⟨["a"], .empty⟩] := by
  have hviews : (parse (Registry.ofNames []) {} "[count: param x; int n: n + x;]").map names =
      .ok ["x", "n"] := by
    with_unfolding_all rfl
  obtain ⟨p, hparse, hnames⟩ := map_eq_ok_iff.1 hviews
  exact ⟨p, hparse, hnames, outcomes_reset_of_parse hparse _ _⟩

end Procedure

end TreeScript
