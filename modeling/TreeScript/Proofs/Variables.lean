import TreeScript.Procedure.Reader
import TreeScript.Proofs.Effects
import TreeScript.Proofs.Maps
import Mathlib.Data.List.Nodup

/-!
# The variables of a procedure

The variables of a procedure are the names that it declares, and they stay so: a declaration brings in a
name once, an assignment declares its target, and a run changes what variables hold but not which there
are.  So a run finds every name that it writes, and never adds one.

- `Procedure.InStep`: what is invariant.
- `InStep.declare`, `InStep.addItem`: the invariant and the items.
- `IsKept`, `IsKept.read`, `IsKept.readAll`: what the items keep holds of the procedures of a text.
- `keys_write`, `keys_perform`, `keys_stepAll`, `InStep.keys_run`: what a run leaves as it is.
- `Procedure.Obtained`, `Obtained.of_isKept`, `inStep_of_obtained`: any runs and resets.
-/

namespace TreeScript

open Std

namespace Procedure

/-- The names that a procedure declares, in the order of their first declarations. -/
def names (p : Procedure) : List String := p.declared.map Node.key

/-- The variables and the declarations of a procedure agree. -/
structure InStep (p : Procedure) : Prop where
  ordered : p.locals.keys.Pairwise fun k l => compare k l = .lt
  mem_keys_iff : ∀ name, name ∈ p.locals.keys ↔ name ∈ p.names
  names_nodup : p.names.Nodup
  parameters_nodup : p.parameters.Nodup
  parameters_subset : p.parameters ⊆ p.names
  target_mem : ∀ target value, .assign target value ∈ p.statements → target ∈ p.names

/-! ### The reader -/

theorem inStep_blank (name : String) (metadata : Option Node) (engine : Engine) :
    (blank name metadata engine).InStep where
  ordered := .nil
  mem_keys_iff _ := Iff.rfl
  names_nodup := .nil
  parameters_nodup := .nil
  parameters_subset := fun _ h => h
  target_mem := fun _ _ h => absurd h List.not_mem_nil

variable {p q : Procedure} {keyword : Keyword} {name : String}

theorem InStep.contains_iff (h : p.InStep) (name : String) :
    p.locals.contains name = true ↔ name ∈ p.names := by
  rw [KeyedList.contains_iff_mem_keys, h.mem_keys_iff]

theorem names_declare (p : Procedure) (keyword : Keyword) (name : String) :
    (p.declare keyword name).names =
      if p.locals.contains name then p.names else p.names ++ [name] := by
  cases hcontains : p.locals.contains name with
  | true => simp [names, declare, hcontains]
  | false => simp [names, declare, hcontains, Node.key]

/-- A declared name is a name of the procedure, and so are all the others. -/
theorem InStep.mem_names_declare (h : p.InStep) (keyword : Keyword) (name : String) :
    name ∈ (p.declare keyword name).names ∧ p.names ⊆ (p.declare keyword name).names := by
  rw [names_declare]
  by_cases hcontains : p.locals.contains name = true
  · rw [if_pos hcontains]
    exact ⟨(h.contains_iff name).1 hcontains, fun _ hmem => hmem⟩
  · rw [if_neg hcontains]
    exact ⟨by simp, fun _ hmem => List.mem_append_left _ hmem⟩

theorem InStep.names_nodup_declare (h : p.InStep) (keyword : Keyword) (name : String) :
    (p.declare keyword name).names.Nodup := by
  rw [names_declare]
  by_cases hcontains : p.locals.contains name = true
  · rw [if_pos hcontains]
    exact h.names_nodup
  · rw [if_neg hcontains, ← List.concat_eq_append]
    exact h.names_nodup.concat fun hmem => hcontains ((h.contains_iff name).2 hmem)

/-- A new name comes to the variables and to the declarations at once. -/
theorem InStep.keys_declare (h : p.InStep) (keyword : Keyword) (name : String) :
    (p.declare keyword name).locals.keys.Pairwise (fun k l => compare k l = .lt) ∧
      ∀ k, k ∈ (p.declare keyword name).locals.keys ↔ k ∈ (p.declare keyword name).names := by
  rw [names_declare]
  by_cases hcontains : p.locals.contains name = true
  · have hlocals : (p.declare keyword name).locals = p.locals := by
      simp [Procedure.declare, hcontains]
    rw [hlocals, if_pos hcontains]
    exact ⟨h.ordered, h.mem_keys_iff⟩
  · have hlocals : (p.declare keyword name).locals =
        p.locals.insert (.leaf name keyword.initial) := by
      simp [Procedure.declare, hcontains]
    have hfresh : ∀ n ∈ p.locals.items, KeyedList.hasKey name n = false := by
      rw [KeyedList.contains, List.any_eq_true] at hcontains
      exact fun n hn => Bool.eq_false_iff.2 fun hkey => hcontains ⟨n, hn, hkey⟩
    have hinsert := (KeyedList.strictlyOrdered_iff_keys.2 h.ordered).insert
      (x := Node.leaf name keyword.initial) hfresh
    rw [hlocals, if_neg hcontains]
    refine ⟨KeyedList.strictlyOrdered_iff_keys.1 hinsert, fun k => ?_⟩
    have hkeys : k ∈ (p.locals.insert (.leaf name keyword.initial)).keys ↔
        k ∈ name :: p.locals.keys :=
      ((KeyedList.perm_insert p.locals _).map Keyed.key).mem_iff
    rw [hkeys, List.mem_cons, List.mem_append, List.mem_singleton, h.mem_keys_iff, or_comm]

/-- A new parameter is a declared name. -/
theorem InStep.parameters_declare_subset (h : p.InStep) (keyword : Keyword) (name : String) :
    (p.declare keyword name).parameters.Nodup ∧
      (p.declare keyword name).parameters ⊆ (p.declare keyword name).names := by
  obtain ⟨hname, hnames⟩ := h.mem_names_declare keyword name
  have hold : p.parameters ⊆ (p.declare keyword name).names := fun _ hmem =>
    hnames (h.parameters_subset hmem)
  have hparameters : (p.declare keyword name).parameters =
      if keyword = .param ∧ name ∉ p.parameters then p.parameters ++ [name] else p.parameters := rfl
  rw [hparameters]
  split
  · next hfresh =>
    constructor
    · rw [← List.concat_eq_append]
      exact h.parameters_nodup.concat hfresh.2
    · intro parameter hmem
      rcases List.mem_append.1 hmem with hmem | hmem
      · exact hold hmem
      · obtain rfl := List.mem_singleton.1 hmem
        exact hname
  · exact ⟨h.parameters_nodup, hold⟩

theorem InStep.declare (h : p.InStep) (keyword : Keyword) (name : String) :
    (p.declare keyword name).InStep where
  ordered := (h.keys_declare keyword name).1
  mem_keys_iff := (h.keys_declare keyword name).2
  names_nodup := h.names_nodup_declare keyword name
  parameters_nodup := (h.parameters_declare_subset keyword name).1
  parameters_subset := (h.parameters_declare_subset keyword name).2
  target_mem target value hmem :=
    (h.mem_names_declare keyword name).2 (h.target_mem target value hmem)

theorem InStep.addStatement (h : p.InStep) {s : Statement}
    (hs : ∀ target value, s = .assign target value → target ∈ p.names) :
    (p.addStatement s).InStep where
  ordered := h.ordered
  mem_keys_iff := h.mem_keys_iff
  names_nodup := h.names_nodup
  parameters_nodup := h.parameters_nodup
  parameters_subset := h.parameters_subset
  target_mem target value hmem := by
    rcases List.mem_append.1 hmem with hmem | hmem
    · exact h.target_mem target value hmem
    · exact hs target value (List.mem_singleton.1 hmem).symm

section Reader

variable {α : Type} {natives : Registry α}

theorem InStep.addItem (h : p.InStep) {item : Item} (hadd : p.addItem natives item = .ok q) :
    q.InStep := by
  cases item with
  | declare keyword name =>
    obtain rfl := Except.ok.inj hadd
    exact h.declare keyword name
  | assign keyword name value =>
    obtain rfl := Except.ok.inj hadd
    refine (h.declare keyword name).addStatement ?_
    rintro target written ⟨⟩
    exact (h.mem_names_declare keyword name).1
  | call native arguments position =>
    simp only [Procedure.addItem] at hadd
    split at hadd
    · obtain rfl := Except.ok.inj hadd
      refine h.addStatement ?_
      rintro target written ⟨⟩
    · split at hadd
      · cases hadd
      · obtain rfl := Except.ok.inj hadd
        exact h

/-- A property that procedures without items have, and that no item breaks. -/
structure IsKept (natives : Registry α) (engine : Engine) (P : Procedure → Prop) : Prop where
  blank : ∀ name metadata, P (blank name metadata engine)
  addItem : ∀ p q item, P p → p.addItem natives item = .ok q → P q

variable {engine : Engine} {P : Procedure → Prop} {s : Scanner}

/-- The property holds in front of each item, and so behind the last one. -/
theorem IsKept.readItems (h : IsKept natives engine P) (hp : P p)
    (hread : readItems natives p s = .ok q) : P q := by
  fun_induction Procedure.readItems natives p s with
  | case1 =>
    obtain rfl := Except.ok.inj hread
    exact hp
  | case2 => cases hread
  | case3 => cases hread
  | case4 p s hmore item t hitem next hadd ih => exact ih (h.addItem p next item hp hadd) hread

theorem IsKept.readInside (h : IsKept natives engine P)
    (hread : readInside natives engine s = .ok p) : P p := by
  simp only [Procedure.readInside] at hread
  split at hread
  · cases hread
  · split at hread
    · cases hread
    · exact h.readItems (h.blank _ _) hread

theorem IsKept.read (h : IsKept natives engine P) (hread : (read natives engine s).1 = .ok p) :
    P p := by
  simp only [Procedure.read] at hread
  cases hsection : (s.findSection '[' ']').1 with
  | error e =>
    rw [hsection] at hread
    cases hread
  | ok body =>
    simp only [hsection, Except.bind] at hread
    exact h.readInside hread

theorem IsKept.readAll (h : IsKept natives engine P) {ps : List Procedure}
    (hread : readAll natives engine s = .ok ps) : ∀ p ∈ ps, P p := by
  fun_induction Procedure.readAll natives engine s generalizing ps with
  | case1 =>
    obtain rfl := Except.ok.inj hread
    exact fun _ hmem => absurd hmem List.not_mem_nil
  | case2 => cases hread
  | case3 s hmore first t hfirst ih =>
    obtain ⟨others, hothers, rfl⟩ := map_eq_ok_iff.1 hread
    exact List.forall_mem_cons.2 ⟨h.read (congrArg Prod.fst hfirst), ih hothers⟩

theorem isKept_inStep : IsKept natives engine InStep where
  blank := fun name metadata => inStep_blank name metadata engine
  addItem := fun _ _ _ hp hadd => hp.addItem hadd

theorem inStep_of_read (h : (read natives engine s).1 = .ok p) : p.InStep :=
  isKept_inStep.read h

theorem inStep_of_readAll {ps : List Procedure} (h : readAll natives engine s = .ok ps) :
    ∀ p ∈ ps, p.InStep :=
  isKept_inStep.readAll h

end Reader

end Procedure

/-! ### Runs -/

namespace Machine

/-- The scope in which a name is written. -/
def written (policy : WritePolicy) (m : Machine) (name : String) : Scope :=
  if m.writesCaller policy name then m.caller else m.locals

/-- A name that is a variable of the procedure is in the scope in which it is written. -/
theorem contains_written {policy : WritePolicy} {m : Machine} {name : String}
    (h : m.locals.contains name = true) : (m.written policy name).contains name = true := by
  rw [written]
  cases policy with
  | callerFirst =>
    split
    · next hcaller => exact hcaller
    · exact h
  | localFirst =>
    split
    · next hcaller => exact (Bool.and_eq_true_iff.1 hcaller).2
    · exact h

/-- To write a variable that is there keeps the variables. -/
theorem keys_write {scope : Scope} (h : KeyedList.StrictlyOrdered scope.items) {name : String}
    (hname : scope.contains name = true) (scalar : Scalar) :
    (write scope name scalar).keys = scope.keys := by
  rw [write, if_pos hname]
  exact h.keys_update name fun _ => rfl

theorem keys_assign {m : Machine} (policy : WritePolicy)
    (h : KeyedList.StrictlyOrdered m.locals.items) {name : String}
    (hname : m.locals.contains name = true) (value : Value) :
    (m.assign policy name value).locals.keys = m.locals.keys := by
  rw [assign]
  split
  · rfl
  · exact keys_write h hname value.toScalar

end Machine

namespace Statement

variable {policy : WritePolicy} {m : Machine}

/-- What a statement does keeps the variables, if its target is one of them. -/
theorem keys_perform (h : KeyedList.StrictlyOrdered m.locals.items) {s : Statement}
    (hs : ∀ target e, s = .assign target e → target ∈ m.locals.keys) {scopes : Scopes}
    {effect : Effect} (heffect : s.effect scopes = .ok effect) :
    (m.perform policy effect).locals.keys = m.locals.keys := by
  cases effect with
  | call call => rfl
  | write target value =>
    obtain ⟨e, rfl⟩ := eq_assign_of_effect heffect
    have htarget := KeyedList.contains_iff_mem_keys.2 (hs target e rfl)
    exact Machine.keys_assign policy h htarget value

/-- However far a run gets, the variables are those with which it started. -/
theorem keys_stepAll (h : KeyedList.StrictlyOrdered m.locals.items) {statements : List Statement}
    (hs : ∀ target value, .assign target value ∈ statements → target ∈ m.locals.keys) :
    (stepAll policy m statements).1.locals.keys = m.locals.keys := by
  refine stepAll_induction (I := fun n => n.locals.keys = m.locals.keys) ?_ rfl
  intro s hmem n effect hkeys heffect
  have htarget : ∀ target e, s = .assign target e → target ∈ n.locals.keys := by
    rintro target e rfl
    rw [hkeys]
    exact hs target e hmem
  rw [keys_perform (h.of_keys_eq hkeys) htarget heffect, hkeys]

end Statement

namespace Procedure

/-- To bind arguments to variables that are there keeps the variables. -/
theorem keys_bindAll {scope : Scope} (h : KeyedList.StrictlyOrdered scope.items)
    {bindings : List (String × String)} (hbindings : ∀ b ∈ bindings, b.1 ∈ scope.keys) :
    (bindings.foldl bind scope).keys = scope.keys := by
  induction bindings generalizing scope with
  | nil => rfl
  | cons b bindings ih =>
    obtain ⟨hfirst, hothers⟩ := List.forall_mem_cons.1 hbindings
    have hkeys : (bind scope b).keys = scope.keys :=
      Machine.keys_write h (KeyedList.contains_iff_mem_keys.2 hfirst) _
    rw [List.foldl_cons, ih (h.of_keys_eq hkeys) (by rwa [hkeys]), hkeys]

variable {p : Procedure}

namespace InStep

theorem strictlyOrdered (h : p.InStep) : KeyedList.StrictlyOrdered p.locals.items :=
  KeyedList.strictlyOrdered_iff_keys.2 h.ordered

/-- What the variables hold does not matter. -/
theorem of_keys (h : p.InStep) {scope : Scope} (hkeys : scope.keys = p.locals.keys) :
    InStep { p with locals := scope } where
  ordered := hkeys ▸ h.ordered
  mem_keys_iff name := hkeys ▸ h.mem_keys_iff name
  names_nodup := h.names_nodup
  parameters_nodup := h.parameters_nodup
  parameters_subset := h.parameters_subset
  target_mem := h.target_mem

/-- The names that some of the arguments are bound to are variables. -/
theorem mem_keys_of_mem_zip (h : p.InStep) {arguments : List String} {b : String × String}
    (hb : b ∈ p.parameters.zip arguments) : b.1 ∈ p.locals.keys :=
  (h.mem_keys_iff b.1).2 (h.parameters_subset (List.of_mem_zip hb).1)

theorem keys_start (h : p.InStep) (arguments : List String) (caller : Scope) :
    (p.start arguments caller).locals.keys = p.locals.keys :=
  keys_bindAll h.strictlyOrdered fun _ hb => h.mem_keys_of_mem_zip hb

/-- Whichever of its statements a run takes, the variables are those of the procedure. -/
theorem keys_stepAll (h : p.InStep) (arguments : List String) (caller : Scope)
    {statements : List Statement} (hsub : statements ⊆ p.statements) :
    (Statement.stepAll p.engine.writePolicy (p.start arguments caller) statements).1.locals.keys =
      p.locals.keys := by
  have hstart := h.keys_start arguments caller
  have hordered := h.strictlyOrdered.of_keys_eq hstart
  refine (Statement.keys_stepAll hordered fun target value hmem => ?_).trans hstart
  rw [hstart, h.mem_keys_iff]
  exact h.target_mem target value (hsub hmem)

theorem keys_run (h : p.InStep) (arguments : List String) (caller : Scope) :
    (p.run arguments caller).1.locals.keys = p.locals.keys := by
  rw [run]
  split
  · exact h.keys_stepAll arguments caller fun _ hmem => hmem
  · rfl

theorem after_run (h : p.InStep) (arguments : List String) (caller : Scope) :
    (p.after (p.run arguments caller).1).InStep :=
  h.of_keys (h.keys_run arguments caller)

theorem reset (h : p.InStep) : p.reset.InStep := by
  obtain ⟨hordered, hperm⟩ := KeyedList.strictlyOrdered_ofList h.names_nodup
  exact
    { ordered := KeyedList.strictlyOrdered_iff_keys.1 hordered
      mem_keys_iff := fun _ => (hperm.map Keyed.key).mem_iff
      names_nodup := h.names_nodup
      parameters_nodup := h.parameters_nodup
      parameters_subset := h.parameters_subset
      target_mem := h.target_mem }

end InStep

/-- The procedures that a program can have: read from a text, and then run and reset in any order. -/
inductive Obtained : Procedure → Prop
  | parse {α : Type} {natives : Registry α} {engine : Engine} {text : String} {p : Procedure}
      (h : parse natives engine text = .ok p) : Obtained p
  | parseAll {α : Type} {natives : Registry α} {engine : Engine} {text : String}
      {ps : KeyedList Procedure} (h : parseAll natives engine text = .ok ps) {p : Procedure}
      (hp : p ∈ ps.items) : Obtained p
  | run {p : Procedure} (h : Obtained p) (arguments : List String) (caller : Scope) :
      Obtained (p.after (p.run arguments caller).1)
  | reset {p : Procedure} (h : Obtained p) : Obtained p.reset

/-- A property that items, runs and resets keep holds of all procedures that a program can have. -/
theorem Obtained.of_isKept {P : Procedure → Prop}
    (hread : ∀ {α : Type} (natives : Registry α) (engine : Engine), IsKept natives engine P)
    (hrun : ∀ p arguments caller, P p → P (p.after (p.run arguments caller).1))
    (hreset : ∀ p, P p → P p.reset) (h : p.Obtained) : P p := by
  induction h with
  | parse h => exact (hread _ _).read h
  | parseAll h hp =>
    obtain ⟨ps, hps, rfl⟩ := map_eq_ok_iff.1 h
    have hperm := (KeyedList.isStableSort_ofList ps).perm
    exact (hread _ _).readAll hps _ (hperm.mem_iff.1 hp)
  | run h arguments caller ih => exact hrun _ arguments caller ih
  | reset h ih => exact hreset _ ih

theorem Obtained.inStep (h : p.Obtained) : p.InStep :=
  h.of_isKept (fun _ _ => isKept_inStep) (fun _ arguments caller hp => hp.after_run arguments caller)
    fun _ hp => hp.reset

/-- No run adds a variable: what it writes is there, whatever it is called with and however far it
gets. -/
structure NeverAdds (p : Procedure) : Prop where
  /-- A parameter is there when its argument is bound. -/
  parameter : ∀ arguments front name argument rest,
    p.parameters.zip arguments = front ++ (name, argument) :: rest →
    (front.foldl bind p.locals).contains name = true
  /-- The target of an assignment is there behind the statements in front of it, in the scope in which it
  is written. -/
  target : ∀ arguments caller front target value rest m,
    p.statements = front ++ .assign target value :: rest →
    Statement.stepAll p.engine.writePolicy (p.start arguments caller) front = (m, none) →
    m.locals.contains target = true ∧
      (m.written p.engine.writePolicy target).contains target = true

theorem InStep.neverAdds (h : p.InStep) : p.NeverAdds where
  parameter arguments front name argument rest hzip := by
    have hmem : ∀ b ∈ front ++ (name, argument) :: rest, b.1 ∈ p.locals.keys := by
      rw [← hzip]
      exact fun b hb => h.mem_keys_of_mem_zip hb
    have hkeys : (front.foldl bind p.locals).keys = p.locals.keys :=
      keys_bindAll h.strictlyOrdered fun b hb => hmem b (List.mem_append_left _ hb)
    rw [KeyedList.contains_iff_mem_keys, hkeys]
    exact hmem (name, argument) (by simp)
  target arguments caller front target value rest m hstatements hm := by
    have hfront : front ⊆ p.statements := by simp [hstatements]
    have hkeys := h.keys_stepAll arguments caller hfront
    have hmem : target ∈ m.locals.keys := by
      rw [hm] at hkeys
      rw [hkeys, h.mem_keys_iff]
      exact h.target_mem target value (by simp [hstatements])
    have hcontains := KeyedList.contains_iff_mem_keys.2 hmem
    exact ⟨hcontains, Machine.contains_written hcontains⟩

/-- **Variables and declarations stay in step**, and no run adds a variable. -/
theorem inStep_of_obtained (h : p.Obtained) : p.InStep ∧ p.NeverAdds := by
  have hstep : p.InStep := by
    induction h with
    | parse h => exact inStep_of_read h
    | parseAll h hp =>
      obtain ⟨ps, hps, rfl⟩ := map_eq_ok_iff.1 h
      have hperm := (KeyedList.isStableSort_ofList ps).perm
      exact inStep_of_readAll hps _ (hperm.mem_iff.1 hp)
    | run h arguments caller ih => exact ih.after_run arguments caller
    | reset h ih => exact ih.reset
  exact ⟨hstep, hstep.neverAdds⟩

theorem inStep_of_obtained_sample :
    ∃ p : Procedure, p.parameters = ["x"] ∧ p.names = ["x", "y"] ∧ p.Obtained ∧
      (p.after (p.run ["2"] .empty).1).reset.InStep ∧
      (p.after (p.run ["2"] .empty).1).reset.NeverAdds := by
  have hviews : (parse (Registry.ofNames []) {} "[f: param x; int y: x + 1;]").toOption.map
      (fun p => (p.parameters, p.names)) = some (["x"], ["x", "y"]) := by
    with_unfolding_all rfl
  obtain ⟨p, hp, hnames⟩ := Option.map_eq_some_iff.1 hviews
  have hparse : parse (Registry.ofNames []) {} "[f: param x; int y: x + 1;]" = .ok p := by
    cases hresult : parse (Registry.ofNames []) {} "[f: param x; int y: x + 1;]" with
    | error e =>
      rw [hresult] at hp
      cases hp
    | ok q =>
      rw [hresult] at hp
      exact congrArg Except.ok (Option.some.inj hp)
  obtain ⟨hparameters, hdeclared⟩ := Prod.mk.inj hnames
  have hobtained : p.Obtained := .parse hparse
  exact ⟨p, hparameters, hdeclared, hobtained,
    inStep_of_obtained (.reset (.run hobtained ["2"] .empty))⟩

end Procedure

end TreeScript
