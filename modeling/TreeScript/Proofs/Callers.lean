import TreeScript.Proofs.Assignments
import TreeScript.Proofs.Effects
import TreeScript.Proofs.Variables

/-!
# A run and its caller

What a run does to the scope of its caller is up to the policy of the procedure.

A procedure that prefers its own scope is sealed off.  The targets of its assignments are variables of its
own, so it never writes the caller, and it reads the caller only for names that it does not declare.

A procedure that prefers its caller writes the names that the caller has, and no others: the names of the
caller stay, and a variable that the caller has too is never written by a statement.

- `AgreeOutside`: scopes that differ in some names only.
- `Twins`, `InStep.twins_run`, `sealed_of_localFirst`: two runs that prefer the procedure's scope.
- `find?_bindAll_of_mem`, `find?_bindAll_of_not_mem`: the variables when the arguments are bound.
- `Framed`, `Framed.perform`, `Framed.stepAll`, `framed_of_callerFirst`: a run that prefers the caller's
  scope.
-/

namespace TreeScript

open KeyedList

/-- Two scopes have the same entries, apart from those with some names. -/
def AgreeOutside (names : List String) (a b : Scope) : Prop :=
  ∀ node : Node, node.key ∉ names → (node ∈ a.items ↔ node ∈ b.items)

theorem AgreeOutside.find?_eq {names : List String} {a b : Scope} (h : AgreeOutside names a b)
    (ha : StrictlyOrdered a.items) (hb : StrictlyOrdered b.items) {name : String}
    (hname : name ∉ names) : a.find? name = b.find? name := by
  refine Option.ext fun node => ?_
  rw [ha.find?_eq_some_iff, hb.find?_eq_some_iff]
  refine and_congr_left ?_
  rintro rfl
  exact h node hname

namespace Procedure

variable {p : Procedure} {caller other : Scope} {m n : Machine}

/-! ### A procedure that prefers its own scope -/

/-- The states of two runs of a procedure that differ in their callers' scopes only, each of which is as
it was when the run began. -/
structure Twins (p : Procedure) (caller other : Scope) (m n : Machine) : Prop where
  keys_eq : m.locals.keys = p.locals.keys
  caller_eq : m.caller = caller
  twin_eq : n = { m with caller := other }

/-- A name is a variable of the procedure, or both callers have the same node for it. -/
theorem Twins.lookup_eq (h : Twins p caller other m n) (hp : p.InStep)
    (hagree : ∀ name, name ∉ p.names → caller.find? name = other.find? name) (name : String) :
    (m.scopes .localFirst).lookup name = (n.scopes .localFirst).lookup name := by
  have hm : (m.scopes .localFirst).lookup name = (m.locals.find? name).or (caller.find? name) := by
    rw [← h.caller_eq]
    exact Scopes.lookup_eq m.locals m.caller name
  have hn : (n.scopes .localFirst).lookup name = (m.locals.find? name).or (other.find? name) := by
    rw [h.twin_eq]
    exact Scopes.lookup_eq m.locals other name
  rw [hm, hn]
  by_cases hname : name ∈ p.names
  · have hcontains : m.locals.contains name = true := by
      rw [contains_iff_mem_keys, h.keys_eq, hp.mem_keys_iff]
      exact hname
    cases hfind : m.locals.find? name with
    | none => exact absurd hcontains (find?_eq_none_iff.1 hfind)
    | some node => rfl
  · rw [hagree name hname]

/-- What a statement does keeps the states twins, since its target is a variable of the procedure. -/
theorem Twins.perform (h : Twins p caller other m n) (hp : p.InStep) {s : Statement}
    (hs : s ∈ p.statements) {scopes : Scopes} {effect : Effect} (heffect : s.effect scopes = .ok effect) :
    Twins p caller other (m.perform .localFirst effect) (n.perform .localFirst effect) := by
  obtain ⟨hkeys, hcaller, rfl⟩ := h
  have htargets : ∀ target e, s = .assign target e → target ∈ m.locals.keys := by
    rintro target e rfl
    rw [hkeys, hp.mem_keys_iff]
    exact hp.target_mem target e hs
  have hperform : (m.perform .localFirst effect).locals.keys = m.locals.keys :=
    Statement.keys_perform (hp.strictlyOrdered.of_keys_eq hkeys) htargets heffect
  cases effect with
  | call call => exact ⟨hkeys, hcaller, rfl⟩
  | write target value =>
    obtain ⟨e, rfl⟩ := Statement.eq_assign_of_effect heffect
    have htarget := contains_iff_mem_keys.2 (htargets target e rfl)
    -- so neither state writes the scope of its caller
    have hlocal : ∀ scope : Scope, (Machine.mk m.locals scope m.calls).assign .localFirst target value =
        ⟨Machine.write m.locals target value.toScalar, scope, m.calls⟩ := by
      intro scope
      unfold Machine.assign Machine.writesCaller
      simp only [htarget, Bool.not_true, Bool.false_and, Bool.false_eq_true, if_false]
    constructor
    case keys_eq => exact hperform.trans hkeys
    case caller_eq =>
      show (m.assign .localFirst target value).caller = caller
      rw [hlocal m.caller, hcaller]
    case twin_eq =>
      show (Machine.mk m.locals other m.calls).assign .localFirst target value =
        { m.assign .localFirst target value with caller := other }
      rw [hlocal other, hlocal m.caller]

/-- Two runs with callers that agree outside the procedure's names end as twins, with the same error. -/
theorem InStep.twins_run (hp : p.InStep) (hpolicy : p.engine.writePolicy = .localFirst)
    (hagree : ∀ name, name ∉ p.names → caller.find? name = other.find? name)
    (arguments : List String) :
    Twins p caller other (p.run arguments caller).1 (p.run arguments other).1 ∧
      (p.run arguments caller).2 = (p.run arguments other).2 := by
  unfold run
  split
  · have hstart : Twins p caller other (p.start arguments caller) (p.start arguments other) :=
      ⟨hp.keys_start arguments caller, rfl, rfl⟩
    rw [hpolicy]
    refine Statement.stepAll_related ?_ ?_ hstart
    · intro s _ m n h
      exact Statement.effect_congr fun name _ => h.lookup_eq hp hagree name
    · intro s hs m n effect h heffect
      exact h.perform hp hs heffect
  · exact ⟨⟨rfl, rfl, rfl⟩, rfl⟩

/-- **A procedure that prefers its own scope is sealed off from its caller.**  A run leaves the caller's
scope as it was, and what it gives depends on the caller only through names that the procedure does not
declare. -/
theorem sealed_of_localFirst (h : p.Obtained) (hpolicy : p.engine.writePolicy = .localFirst)
    (arguments : List String) (hcaller : StrictlyOrdered caller.items) :
    (p.run arguments caller).1.caller = caller ∧
      ∀ other : Scope, StrictlyOrdered other.items → AgreeOutside p.names caller other →
        (p.run arguments other).2 = (p.run arguments caller).2 ∧
        (p.run arguments other).1.calls = (p.run arguments caller).1.calls ∧
        (p.run arguments other).1.locals = (p.run arguments caller).1.locals := by
  have hp := h.inStep
  constructor
  · obtain ⟨htwins, -⟩ := hp.twins_run hpolicy (fun _ _ => rfl) arguments
    exact htwins.caller_eq
  · intro other hother hagree
    obtain ⟨htwins, herror⟩ := hp.twins_run hpolicy
      (fun _ hname => hagree.find?_eq hcaller hother hname) arguments
    refine ⟨herror.symm, ?_, ?_⟩
    · rw [htwins.twin_eq]
    · rw [htwins.twin_eq]

theorem sealed_of_localFirst_sample :
    ∃ (p : Procedure) (caller other : Scope), p.Obtained ∧ p.engine.writePolicy = .localFirst ∧
      p.names = ["x", "hp"] ∧ caller.keys = ["hp", "mp"] ∧ other.keys = ["mp", "x"] ∧
      StrictlyOrdered caller.items ∧ StrictlyOrdered other.items ∧
      AgreeOutside p.names caller other ∧ (p.run ["2"] caller).1.caller = caller ∧
      (p.run ["2"] other).2 = (p.run ["2"] caller).2 ∧
      (p.run ["2"] other).1.calls = (p.run ["2"] caller).1.calls ∧
      (p.run ["2"] other).1.locals = (p.run ["2"] caller).1.locals := by
  have hviews : (parse (Registry.ofNames ["log"]) { writePolicy := .localFirst }
      "[f: param x; int hp: hp + x + mp; log[int hp];]").map
        (fun p => (p.engine.writePolicy, p.names)) = .ok (.localFirst, ["x", "hp"]) := by
    with_unfolding_all rfl
  obtain ⟨p, hparse, hp⟩ := map_eq_ok_iff.1 hviews
  obtain ⟨hpolicy, hnames⟩ := Prod.mk.inj hp
  let caller : Scope := ⟨[.leaf "hp" (.integer 10), .leaf "mp" (.integer 1)], 16⟩
  let other : Scope := ⟨[.leaf "mp" (.integer 1), .leaf "x" (.integer 5)], 16⟩
  have hcaller : StrictlyOrdered caller.items := by
    rw [strictlyOrdered_iff_keys]
    with_unfolding_all decide
  have hother : StrictlyOrdered other.items := by
    rw [strictlyOrdered_iff_keys]
    with_unfolding_all decide
  have hagree : AgreeOutside p.names caller other := by
    rw [hnames]
    intro node hnode
    have hhp : node ≠ .leaf "hp" (.integer 10) := by
      rintro rfl
      exact hnode (by decide)
    have hx : node ≠ .leaf "x" (.integer 5) := by
      rintro rfl
      exact hnode (by decide)
    simp [caller, other, hhp, hx]
  obtain ⟨hsame, hothers⟩ := sealed_of_localFirst (.parse hparse) hpolicy ["2"] hcaller
  exact ⟨p, caller, other, .parse hparse, hpolicy, hnames, rfl, rfl, hcaller, hother, hagree, hsame,
    hothers other hother hagree⟩

/-! ### The arguments -/

section Arguments

variable {scope : Scope} {bindings : List (String × String)} {name : String}

theorem strictlyOrdered_bind (h : StrictlyOrdered scope.items) (b : String × String) :
    StrictlyOrdered (bind scope b).items :=
  strictlyOrdered_write h b.1 (.infer b.2)

theorem find?_bind (h : StrictlyOrdered scope.items) (b : String × String) :
    (bind scope b).find? = Function.update scope.find? b.1 (some (.leafOfText b.1 b.2)) :=
  find?_write h b.1 (.infer b.2)

theorem strictlyOrdered_bindAll (h : StrictlyOrdered scope.items) (bindings : List (String × String)) :
    StrictlyOrdered (bindings.foldl bind scope).items := by
  induction bindings generalizing scope with
  | nil => exact h
  | cons b rest ih => exact ih (strictlyOrdered_bind h b)

theorem find?_bindAll_of_not_mem (h : StrictlyOrdered scope.items)
    (hname : name ∉ bindings.map Prod.fst) :
    (bindings.foldl bind scope).find? name = scope.find? name := by
  induction bindings generalizing scope with
  | nil => rfl
  | cons b rest ih =>
    rw [List.map_cons, List.mem_cons, not_or] at hname
    obtain ⟨hfirst, hrest⟩ := hname
    rw [List.foldl_cons, ih (strictlyOrdered_bind h b) hrest, find?_bind h,
      Function.update_of_ne hfirst]

/-- A name to which one argument is bound holds what is inferred from it. -/
theorem find?_bindAll_of_mem (h : StrictlyOrdered scope.items)
    (hnodup : (bindings.map Prod.fst).Nodup) {b : String × String} (hb : b ∈ bindings) :
    (bindings.foldl bind scope).find? b.1 = some (.leafOfText b.1 b.2) := by
  induction bindings generalizing scope with
  | nil => cases hb
  | cons first rest ih =>
    obtain ⟨hfresh, hrest⟩ := List.nodup_cons.1 hnodup
    have hordered := strictlyOrdered_bind h first
    rw [List.foldl_cons]
    rcases List.mem_cons.1 hb with rfl | hb
    · rw [find?_bindAll_of_not_mem hordered hfresh, find?_bind h, Function.update_self]
    · exact ih hordered hrest hb

end Arguments

/-! ### A procedure that prefers its caller -/

/-- What a run that prefers the caller keeps, from `caller` and `start` on: the names of the caller, what
it has for names that are no targets, and the variables that the caller has too. -/
structure Framed (p : Procedure) (caller start : Scope) (m : Machine) : Prop where
  keys_eq : m.caller.keys = caller.keys
  find?_caller_eq : ∀ name, (∀ e, .assign name e ∉ p.statements) →
    m.caller.find? name = caller.find? name
  ordered : StrictlyOrdered m.locals.items
  find?_locals_eq : ∀ name, caller.contains name = true → m.locals.find? name = start.find? name

variable {start : Scope}

/-- An assignment writes the caller if the caller has the name, which is then a target; otherwise it
writes a variable that the caller does not have. -/
theorem Framed.perform (h : Framed p caller start m) (hcaller : StrictlyOrdered caller.items)
    {s : Statement} (hs : s ∈ p.statements) {scopes : Scopes} {effect : Effect}
    (heffect : s.effect scopes = .ok effect) :
    Framed p caller start (m.perform .callerFirst effect) := by
  cases effect with
  | call call => exact ⟨h.keys_eq, h.find?_caller_eq, h.ordered, h.find?_locals_eq⟩
  | write target value =>
    obtain ⟨e, rfl⟩ := Statement.eq_assign_of_effect heffect
    have hordered : StrictlyOrdered m.caller.items := hcaller.of_keys_eq h.keys_eq
    show Framed p caller start (m.assign .callerFirst target value)
    unfold Machine.assign
    by_cases htarget : m.writesCaller .callerFirst target = true
    · rw [if_pos htarget]
      constructor
      case keys_eq => exact (Machine.keys_write hordered htarget _).trans h.keys_eq
      case find?_caller_eq =>
        intro name hname
        have hne : name ≠ target := by
          rintro rfl
          exact hname e hs
        show (Machine.write m.caller target value.toScalar).find? name = _
        rw [find?_write hordered, Function.update_of_ne hne]
        exact h.find?_caller_eq name hname
      case ordered => exact h.ordered
      case find?_locals_eq => exact h.find?_locals_eq
    · rw [if_neg htarget]
      constructor
      case keys_eq => exact h.keys_eq
      case find?_caller_eq => exact h.find?_caller_eq
      case ordered => exact strictlyOrdered_write h.ordered target value.toScalar
      case find?_locals_eq =>
        intro name hname
        have hne : name ≠ target := by
          rintro rfl
          -- the caller still has the names with which it came
          rw [contains_iff_mem_keys, ← h.keys_eq, ← contains_iff_mem_keys] at hname
          exact htarget hname
        show (Machine.write m.locals target value.toScalar).find? name = _
        rw [find?_write h.ordered, Function.update_of_ne hne]
        exact h.find?_locals_eq name hname

theorem Framed.stepAll (h : Framed p caller start m) (hcaller : StrictlyOrdered caller.items) :
    Framed p caller start (Statement.stepAll .callerFirst m p.statements).1 :=
  Statement.stepAll_induction (fun _ hs _ _ hframed heffect => hframed.perform hcaller hs heffect) h

/-- What a run of a procedure that prefers its caller leaves as it was, and what it leaves bound. -/
structure KeepsCaller (p : Procedure) (arguments : List String) (caller : Scope) (m : Machine) :
    Prop where
  /-- The caller has the names that it had, in the same order. -/
  keys_eq : m.caller.keys = caller.keys
  /-- An entry of the caller whose name is no target is as it was. -/
  find?_caller_eq : ∀ name, (∀ e, .assign name e ∉ p.statements) →
    m.caller.find? name = caller.find? name
  /-- A parameter that the caller has too holds its argument, if the number of arguments is right. -/
  find?_parameter : arguments.length = p.parameters.length →
    ∀ name argument, (name, argument) ∈ p.parameters.zip arguments → caller.contains name = true →
      m.locals.find? name = some (.leafOfText name argument)
  /-- Any other variable that the caller has too holds what it held. -/
  find?_variable : ∀ name, caller.contains name = true →
    arguments.length ≠ p.parameters.length ∨ name ∉ p.parameters →
      m.locals.find? name = p.locals.find? name

/-- **A procedure that prefers its caller keeps to the caller's names.** -/
theorem keepsCaller_of_callerFirst (h : p.Obtained) (hpolicy : p.engine.writePolicy = .callerFirst)
    (arguments : List String) (hcaller : StrictlyOrdered caller.items) :
    p.KeepsCaller arguments caller (p.run arguments caller).1 := by
  have hp := h.inStep
  unfold run
  by_cases hcount : arguments.length = p.parameters.length
  · rw [if_pos hcount, hpolicy]
    have hnames : (p.parameters.zip arguments).map Prod.fst = p.parameters :=
      List.map_fst_zip hcount.ge
    have hnodup : ((p.parameters.zip arguments).map Prod.fst).Nodup := by
      rw [hnames]
      exact hp.parameters_nodup
    have hstart : Framed p caller (p.start arguments caller).locals (p.start arguments caller) :=
      ⟨rfl, fun _ _ => rfl, strictlyOrdered_bindAll hp.strictlyOrdered _, fun _ _ => rfl⟩
    have hend := hstart.stepAll hcaller
    constructor
    case keys_eq => exact hend.keys_eq
    case find?_caller_eq => exact hend.find?_caller_eq
    case find?_parameter =>
      intro _ name argument hmem hname
      rw [hend.find?_locals_eq name hname]
      exact find?_bindAll_of_mem hp.strictlyOrdered hnodup hmem
    case find?_variable =>
      intro name hname hother
      have hfree : name ∉ (p.parameters.zip arguments).map Prod.fst := by
        rw [hnames]
        exact hother.resolve_left fun hne => hne hcount
      rw [hend.find?_locals_eq name hname]
      exact find?_bindAll_of_not_mem hp.strictlyOrdered hfree
  · rw [if_neg hcount]
    exact ⟨rfl, fun _ _ => rfl, fun h => absurd h hcount, fun _ _ _ => rfl⟩

theorem keepsCaller_of_callerFirst_sample :
    ∃ (p : Procedure) (caller : Scope), p.Obtained ∧ p.engine.writePolicy = .callerFirst ∧
      p.parameters = ["hp"] ∧ p.names = ["hp", "mp", "n"] ∧ caller.keys = ["hp", "mp"] ∧
      StrictlyOrdered caller.items ∧ p.KeepsCaller ["2"] caller (p.run ["2"] caller).1 := by
  have hviews : (parse (Registry.ofNames []) {} "[f: param hp; int mp: hp + mp; int n: mp;]").map
      (fun p => (p.engine.writePolicy, p.parameters, p.names)) =
        .ok (.callerFirst, ["hp"], ["hp", "mp", "n"]) := by
    with_unfolding_all rfl
  obtain ⟨p, hparse, hp⟩ := map_eq_ok_iff.1 hviews
  obtain ⟨hpolicy, hnames⟩ := Prod.mk.inj hp
  obtain ⟨hparameters, hdeclared⟩ := Prod.mk.inj hnames
  let caller : Scope := ⟨[.leaf "hp" (.integer 10), .leaf "mp" (.integer 1)], 16⟩
  have hcaller : StrictlyOrdered caller.items := by
    rw [strictlyOrdered_iff_keys]
    with_unfolding_all decide
  exact ⟨p, caller, .parse hparse, hpolicy, hparameters, hdeclared, rfl, hcaller,
    keepsCaller_of_callerFirst (.parse hparse) hpolicy ["2"] hcaller⟩

end Procedure

end TreeScript
