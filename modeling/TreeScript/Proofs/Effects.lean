import TreeScript.Procedure.Run
import TreeScript.Proofs.Evaluation
import TreeScript.Proofs.Recognition

/-!
# A step in two halves

A statement first evaluates its expressions and then does one thing: it writes a value, or it calls a
native function.  The first half only reads, and it may fail; the second half only changes the state, and
it cannot fail.  So whatever holds of a run is shown of single effects: a property of states, or a relation
between the states of two runs, that no effect breaks holds wherever the run ends.

- `Effect`, `Statement.effect`, `Machine.perform`: the two halves, and `Statement.step_eq`.
- `Statement.effect_congr`: the first half depends on what the scopes have for the names in it.
- `Statement.stepAll_induction`, `Statement.stepAll_related`: one run, and two runs side by side.
-/

namespace TreeScript

/-- What a statement is about to do when its expressions are evaluated. -/
inductive Effect where
  | write (target : String) (value : Value)
  | call (call : Call)

namespace Statement

/-- The literals of the expressions of a statement. -/
def literals : Statement → List String
  | assign _ value => value.expr.literals
  | call _ arguments => arguments.flatMap (·.expr.literals)

/-- What a statement is about to do, given the scopes in which it reads. -/
def effect (scopes : Scopes) : Statement → Except Error Effect
  | assign target value => (value.eval scopes).map (.write target)
  | call native arguments =>
    (arguments.mapM (TypedExpr.eval scopes)).map fun vs => .call ⟨native, vs⟩

end Statement

/-- The state after an effect. -/
def Machine.perform (policy : WritePolicy) (m : Machine) : Effect → Machine
  | .write target value => m.assign policy target value
  | .call call => { m with calls := m.calls ++ [call] }

namespace Statement

variable {policy : WritePolicy} {statements : List Statement} {s : Statement}

/-- A step is an effect that is found and then performed. -/
theorem step_eq (policy : WritePolicy) (m : Machine) (s : Statement) :
    s.step policy m = (s.effect (m.scopes policy)).map (m.perform policy) := by
  cases s with
  | assign target value =>
    show (value.eval (m.scopes policy) >>= fun v => pure (m.assign policy target v)) =
      ((value.eval (m.scopes policy)).map (.write target)).map (m.perform policy)
    cases value.eval (m.scopes policy) <;> rfl
  | call native arguments =>
    show (arguments.mapM (TypedExpr.eval (m.scopes policy)) >>= fun vs =>
        pure { m with calls := m.calls ++ [⟨native, vs⟩] }) =
      ((arguments.mapM (TypedExpr.eval (m.scopes policy))).map fun vs => .call ⟨native, vs⟩).map
        (m.perform policy)
    cases arguments.mapM (TypedExpr.eval (m.scopes policy)) <;> rfl

/-- Only an assignment writes, and it writes its target. -/
theorem eq_assign_of_effect {scopes : Scopes} {target : String} {value : Value}
    (h : s.effect scopes = .ok (.write target value)) : ∃ e, s = .assign target e := by
  cases s with
  | assign name e =>
    obtain ⟨v, -, heq⟩ := map_eq_ok_iff.1 h
    cases heq
    exact ⟨e, rfl⟩
  | call native arguments =>
    obtain ⟨vs, -, heq⟩ := map_eq_ok_iff.1 h
    cases heq

theorem mapM_eval_congr {arguments : List TypedExpr} {a b : Scopes}
    (h : Scopes.Agree (arguments.flatMap (·.expr.literals)) a b) :
    arguments.mapM (TypedExpr.eval a) = arguments.mapM (TypedExpr.eval b) := by
  induction arguments with
  | nil => rfl
  | cons argument rest ih =>
    rw [List.flatMap_cons] at h
    obtain ⟨hfirst, hrest⟩ := Scopes.agree_append.1 h
    rw [List.mapM_cons, List.mapM_cons, TypedExpr.eval_congr hfirst, ih hrest]

/-- Scopes that have the same nodes for the names in a statement make it do the same. -/
theorem effect_congr {a b : Scopes} (h : Scopes.Agree s.literals a b) : s.effect a = s.effect b := by
  cases s with
  | assign target value =>
    show (value.eval a).map _ = (value.eval b).map _
    rw [TypedExpr.eval_congr h]
  | call native arguments =>
    show (arguments.mapM (TypedExpr.eval a)).map _ = (arguments.mapM (TypedExpr.eval b)).map _
    rw [mapM_eval_congr h]

/-! ### Runs -/

/-- A run goes on with the state behind an effect, and it ends in front of a failure. -/
theorem stepAll_cons (policy : WritePolicy) (m : Machine) (s : Statement) (rest : List Statement) :
    stepAll policy m (s :: rest) =
      match s.effect (m.scopes policy) with
      | .ok effect => stepAll policy (m.perform policy effect) rest
      | .error e => (m, some e) := by
  rw [stepAll, step_eq]
  cases s.effect (m.scopes policy) <;> rfl

/-- A relation between two states that makes statements do the same in both, and that holds again behind
what they do, makes two runs end alike. -/
theorem stepAll_related {R : Machine → Machine → Prop}
    (heffect : ∀ s ∈ statements, ∀ m n, R m n →
      s.effect (m.scopes policy) = s.effect (n.scopes policy))
    (hperform : ∀ s ∈ statements, ∀ m n effect, R m n →
      s.effect (m.scopes policy) = .ok effect → R (m.perform policy effect) (n.perform policy effect))
    {m n : Machine} (h : R m n) :
    R (stepAll policy m statements).1 (stepAll policy n statements).1 ∧
      (stepAll policy m statements).2 = (stepAll policy n statements).2 := by
  induction statements generalizing m n with
  | nil => exact ⟨h, rfl⟩
  | cons s rest ih =>
    rw [stepAll_cons, stepAll_cons, ← heffect s List.mem_cons_self m n h]
    cases hs : s.effect (m.scopes policy) with
    | error e => exact ⟨h, rfl⟩
    | ok effect =>
      have hnext := hperform s List.mem_cons_self m n effect h hs
      exact ih (fun t ht => heffect t (List.mem_cons_of_mem _ ht))
        (fun t ht => hperform t (List.mem_cons_of_mem _ ht)) hnext

/-- A property that holds in front of a run and that no effect of its statements breaks holds where the
run ends, be it behind the last statement or in front of a failure. -/
theorem stepAll_induction {I : Machine → Prop}
    (hperform : ∀ s ∈ statements, ∀ m effect, I m →
      s.effect (m.scopes policy) = .ok effect → I (m.perform policy effect))
    {m : Machine} (h : I m) : I (stepAll policy m statements).1 := by
  -- a run beside itself
  have hboth := stepAll_related (R := fun m n => m = n ∧ I m)
    (fun s _ m n hmn => hmn.1 ▸ rfl)
    (fun s hs m n effect hmn heffect =>
      ⟨congrArg (Machine.perform policy · effect) hmn.1, hperform s hs m effect hmn.2 heffect⟩)
    ⟨rfl, h⟩
  exact hboth.1.2

end Statement

end TreeScript
