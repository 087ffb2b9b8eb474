import TreeScript.Proofs.Variables
import Mathlib.Data.Finset.Card

/-!
# Where a run stops

A run has two kinds of errors.  The number of its arguments is wrong: then nothing was done.  Or one of
its statements cannot evaluate its operands: then everything in front of that statement was done, and
nothing of the statement itself.  The two cannot be confused, since no evaluation complains about the
number of arguments.

- `FailsOnly`, `failsOnly_eval`: what the errors of an evaluation are like.
- `Statement.FailsWith`, `effect_eq_error_iff`: a statement fails with its first operand that fails.
- `Statement.stepAll_eq_error_iff`: a run that fails has taken the statements in front of one that fails.
- `Procedure.StopsBefore`, `run_stopsBefore_of_obtained`: all of it for the runs of procedures.
-/

namespace TreeScript

/-! ### The errors of an evaluation -/

/-- Every error of a computation is of some kind. -/
def FailsOnly {α : Type} (P : Error → Prop) (x : Except Error α) : Prop := ∀ e, x = .error e → P e

section FailsOnly

variable {α β : Type} {P : Error → Prop}

theorem failsOnly_ok (a : α) : FailsOnly P (.ok a) := by
  intro e h
  cases h

theorem failsOnly_error {e : Error} (h : P e) : FailsOnly P (.error e : Except Error α) := by
  rintro e' ⟨⟩
  exact h

theorem FailsOnly.mono {Q : Error → Prop} {x : Except Error α} (hx : FailsOnly P x)
    (h : ∀ e, P e → Q e) : FailsOnly Q x :=
  fun e he => h e (hx e he)

/-- The second computation has to do for what the first one gives. -/
theorem FailsOnly.bind_of_ok {x : Except Error α} {f : α → Except Error β} (hx : FailsOnly P x)
    (hf : ∀ a, x = .ok a → FailsOnly P (f a)) : FailsOnly P (x >>= f) := by
  cases x with
  | error e => exact failsOnly_error (hx e rfl)
  | ok a => exact hf a rfl

theorem FailsOnly.bind {x : Except Error α} {f : α → Except Error β} (hx : FailsOnly P x)
    (hf : ∀ a, FailsOnly P (f a)) : FailsOnly P (x >>= f) :=
  hx.bind_of_ok fun a _ => hf a

theorem FailsOnly.map {x : Except Error α} (hx : FailsOnly P x) (f : α → β) :
    FailsOnly P (x.map f) := by
  cases x with
  | error e => exact failsOnly_error (hx e rfl)
  | ok a => exact failsOnly_ok (f a)

end FailsOnly

namespace Error

/-- The error of a run that was given the wrong number of arguments. -/
def isArgumentCount : Error → Bool
  | argumentCount _ _ _ => true
  | _ => false

end Error

/-- An error that is not about the number of arguments. -/
def NotCounting (e : Error) : Prop := e.isArgumentCount = false

/-- A node that cannot be read as what is asked for is reported with its key. -/
theorem failsOnly_readScalar {α : Type} (node : Node) (reading : Reading)
    (convert : Scalar → Option α) :
    FailsOnly (fun e => ∃ value, e = .unreadable node.key value reading)
      (node.readScalar reading convert) := by
  cases node with
  | leaf key scalar =>
    rw [Node.readScalar]
    split
    · exact failsOnly_ok _
    · exact failsOnly_error ⟨_, rfl⟩
  | branch key children => exact failsOnly_error ⟨_, rfl⟩

namespace Expr

variable (scopes : Scopes)

/-- A name fails with its node. -/
theorem failsOnly_lookupAs {α : Type} (name : String) (reading : Reading)
    (convert : Scalar → Option α) (zero : α) :
    FailsOnly (fun e => ∃ node value, scopes.lookup name = some node ∧
        node.readScalar reading convert = .error e ∧ e = .unreadable node.key value reading)
      (lookupAs scopes name (Node.readScalar · reading convert) zero) := by
  unfold lookupAs
  split
  · next node hnode =>
    intro e he
    obtain ⟨value, hvalue⟩ := failsOnly_readScalar node reading convert e he
    exact ⟨node, value, hnode, he, hvalue⟩
  · exact failsOnly_ok _

theorem notCounting_lookupAs {α : Type} (name : String) (reading : Reading)
    (convert : Scalar → Option α) (zero : α) :
    FailsOnly NotCounting (lookupAs scopes name (Node.readScalar · reading convert) zero) := by
  refine (failsOnly_lookupAs scopes name reading convert zero).mono ?_
  rintro _ ⟨node, value, -, -, rfl⟩
  rfl

theorem failsOnly_decimal (e : Expr) : FailsOnly NotCounting (e.decimal scopes) := by
  induction e with
  | literal text =>
    rw [decimal]
    split
    · exact failsOnly_ok _
    · exact notCounting_lookupAs scopes text _ _ _
  | negative inner ih => exact ih.bind fun _ => failsOnly_ok _
  | binary op left right hleft hright =>
    cases op with
    | plus | minus | times => exact hleft.bind fun _ => hright.bind fun _ => failsOnly_ok _
    | divide =>
      refine hleft.bind fun x => hright.bind fun y => ?_
      split
      · exact failsOnly_error rfl
      · exact failsOnly_ok _
    | and | or | equal | unequal => exact failsOnly_error rfl

theorem failsOnly_truth (e : Expr) : FailsOnly NotCounting (e.truth scopes) := by
  induction e with
  | literal text =>
    rw [truth]
    split
    · exact failsOnly_ok _
    · exact notCounting_lookupAs scopes text _ _ _
  | negative inner ih => exact failsOnly_error rfl
  | binary op left right hleft hright =>
    cases op with
    | and =>
      refine hleft.bind fun b => ?_
      split
      · exact hright
      · exact failsOnly_ok _
    | or =>
      refine hleft.bind fun b => ?_
      split
      · exact failsOnly_ok _
      · exact hright
    | equal | unequal =>
      exact (failsOnly_decimal scopes left).bind fun _ =>
        (failsOnly_decimal scopes right).bind fun _ => failsOnly_ok _
    | plus | minus | times | divide => exact failsOnly_error rfl

theorem failsOnly_integer (e : Expr) : FailsOnly NotCounting (e.integer scopes) := by
  refine (failsOnly_decimal scopes e).bind fun x => ?_
  split
  · exact failsOnly_ok _
  · exact failsOnly_error rfl

end Expr

/-- No evaluation complains about the number of arguments. -/
theorem TypedExpr.failsOnly_eval (scopes : Scopes) (e : TypedExpr) :
    FailsOnly NotCounting (e.eval scopes) := by
  rw [TypedExpr.eval]
  split
  · exact (e.expr.failsOnly_integer scopes).map _
  · exact (e.expr.failsOnly_decimal scopes).map _
  · exact (e.expr.failsOnly_truth scopes).map _

/-! ### Statements that fail -/

theorem bind_eq_ok_iff {ε α β : Type} {x : Except ε α} {f : α → Except ε β} {b : β} :
    x >>= f = .ok b ↔ ∃ a, x = .ok a ∧ f a = .ok b := by
  cases x <;> simp [bind, Except.bind]

theorem map_eq_error_iff {ε α β : Type} {f : α → β} {x : Except ε α} {e : ε} :
    x.map f = .error e ↔ x = .error e := by
  cases x <;> simp [Except.map]

/-- A list of computations fails with the first of them that fails. -/
theorem mapM_eq_error_iff {ε α β : Type} {f : α → Except ε β} {xs : List α} {e : ε} :
    xs.mapM f = .error e ↔
      ∃ front x rest ys, xs = front ++ x :: rest ∧ front.mapM f = .ok ys ∧ f x = .error e := by
  constructor
  · intro h
    induction xs with
    | nil => cases h
    | cons x xs ih =>
      rw [List.mapM_cons] at h
      cases hx : f x with
      | error e' =>
        rw [hx] at h
        cases h
        exact ⟨[], x, xs, [], rfl, rfl, hx⟩
      | ok y =>
        have hrest : xs.mapM f = .error e := by
          rw [hx] at h
          cases hxs : xs.mapM f with
          | error e' =>
            rw [hxs] at h
            cases h
            rfl
          | ok ys =>
            rw [hxs] at h
            cases h
        obtain ⟨front, z, rest, ys, rfl, hfront, hz⟩ := ih hrest
        refine ⟨x :: front, z, rest, y :: ys, rfl, ?_, hz⟩
        rw [List.mapM_cons, hx, hfront]
        rfl
  · rintro ⟨front, x, rest, ys, rfl, hfront, hx⟩
    rw [List.mapM_append, hfront, List.mapM_cons, hx]
    rfl

namespace Statement

/-- The expressions that a statement evaluates, in their order. -/
def operands : Statement → List TypedExpr
  | assign _ value => [value]
  | call _ arguments => arguments

/-- The native function that a statement calls. -/
def native? : Statement → Option String
  | assign _ _ => none
  | call native _ => some native

/-- A statement fails with the error of its first operand that has no value. -/
def FailsWith (scopes : Scopes) (s : Statement) (e : Error) : Prop :=
  ∃ front x rest values, s.operands = front ++ x :: rest ∧
    front.mapM (TypedExpr.eval scopes) = .ok values ∧ x.eval scopes = .error e

variable {policy : WritePolicy} {scopes : Scopes} {m n : Machine} {s : Statement}
  {statements : List Statement} {e : Error}

theorem effect_eq_error_iff : s.effect scopes = .error e ↔ s.FailsWith scopes e := by
  have hoperands : s.effect scopes = .error e ↔
      s.operands.mapM (TypedExpr.eval scopes) = .error e := by
    cases s with
    | assign target value =>
      show (value.eval scopes).map _ = _ ↔ [value].mapM _ = _
      cases hvalue : value.eval scopes <;>
        simp [List.mapM_cons, hvalue, Except.map, bind, Except.bind, pure, Except.pure]
    | call native arguments => exact map_eq_error_iff
  exact hoperands.trans mapM_eq_error_iff

theorem step_eq_error_iff : s.step policy m = .error e ↔ s.FailsWith (m.scopes policy) e := by
  rw [step_eq, map_eq_error_iff, effect_eq_error_iff]

/-- A statement is not carried out if any of its operands has no value. -/
theorem exists_step_eq_error {x : TypedExpr} (hx : x ∈ s.operands)
    (h : x.eval (m.scopes policy) = .error e) : ∃ e', s.step policy m = .error e' := by
  cases hstep : s.step policy m with
  | error e' => exact ⟨e', rfl⟩
  | ok m' =>
    -- the operands up to this one have a first one that fails
    obtain ⟨front, rest, hsplit⟩ := List.append_of_mem hx
    cases hfront : front.mapM (TypedExpr.eval (m.scopes policy)) with
    | ok values =>
      have hfails : s.FailsWith (m.scopes policy) e := ⟨front, x, rest, values, hsplit, hfront, h⟩
      rw [step_eq_error_iff.2 hfails] at hstep
      cases hstep
    | error e' =>
      obtain ⟨front', y, rest', values, rfl, hfront', hy⟩ := mapM_eq_error_iff.1 hfront
      have hfails : s.FailsWith (m.scopes policy) e' :=
        ⟨front', y, rest' ++ x :: rest, values, by simp [hsplit], hfront', hy⟩
      rw [step_eq_error_iff.2 hfails] at hstep
      cases hstep

/-! ### Runs that fail -/

/-- A run that fails takes the statements in front of one that fails, and no others. -/
theorem stepAll_eq_error_iff :
    stepAll policy m statements = (n, some e) ↔
      ∃ k s, statements[k]? = some s ∧ stepAll policy m (statements.take k) = (n, none) ∧
        s.step policy n = .error e := by
  induction statements generalizing m with
  | nil => simp [stepAll]
  | cons first rest ih =>
    cases hfirst : first.step policy m with
    | error e' =>
      have hstop : stepAll policy m (first :: rest) = (m, some e') := by
        rw [stepAll, hfirst]
      rw [hstop]
      constructor
      · rintro ⟨⟩
        exact ⟨0, first, rfl, rfl, hfirst⟩
      · rintro ⟨k, s, hs, hfront, hfails⟩
        cases k with
        | zero =>
          obtain rfl := Option.some.inj hs
          obtain ⟨rfl, -⟩ := Prod.mk.inj hfront
          rw [hfirst] at hfails
          cases hfails
          rfl
        | succ k =>
          rw [List.take_succ_cons, stepAll, hfirst] at hfront
          cases hfront
    | ok m' =>
      have hgo : ∀ ss, stepAll policy m (first :: ss) = stepAll policy m' ss := by
        intro ss
        rw [stepAll, hfirst]
      rw [hgo, ih]
      constructor
      · rintro ⟨k, s, hs, hfront, hfails⟩
        exact ⟨k + 1, s, hs, by rwa [List.take_succ_cons, hgo], hfails⟩
      · rintro ⟨k, s, hs, hfront, hfails⟩
        cases k with
        | zero =>
          obtain rfl := Option.some.inj hs
          obtain ⟨rfl, -⟩ := Prod.mk.inj hfront
          rw [hfirst] at hfails
          cases hfails
        | succ k =>
          rw [List.take_succ_cons, hgo] at hfront
          exact ⟨k, s, hs, hfront, hfails⟩

/-- Statements that were all taken have made one call for each of them that is a call, in order. -/
theorem natives_stepAll (h : stepAll policy m statements = (n, none)) :
    n.calls.map Call.native = m.calls.map Call.native ++ statements.filterMap native? := by
  induction statements generalizing m with
  | nil =>
    obtain ⟨rfl, -⟩ := Prod.mk.inj h
    simp
  | cons s rest ih =>
    rw [stepAll_cons] at h
    cases heffect : s.effect (m.scopes policy) with
    | error e =>
      rw [heffect] at h
      cases h
    | ok effect =>
      rw [heffect] at h
      rw [ih h]
      cases s with
      | assign target value =>
        obtain ⟨v, -, rfl⟩ := map_eq_ok_iff.1 heffect
        have hcalls : (m.perform policy (.write target v)).calls = m.calls := by
          show (m.assign policy target v).calls = m.calls
          unfold Machine.assign
          split <;> rfl
        rw [hcalls]
        rfl
      | call native arguments =>
        obtain ⟨values, -, rfl⟩ := map_eq_ok_iff.1 heffect
        simp [Machine.perform, native?]

theorem failsOnly_step (policy : WritePolicy) (m : Machine) (s : Statement) :
    FailsOnly NotCounting (s.step policy m) := by
  intro e h
  obtain ⟨-, x, -, -, -, -, hx⟩ := step_eq_error_iff.1 h
  exact x.failsOnly_eval _ e hx

end Statement

namespace Procedure

/-- A run stops in front of the statement with number `k`: its arguments are bound and the statements in
front of that one are taken, with one call for each of them that is a call; and the statement fails. -/
structure StopsBefore (p : Procedure) (arguments : List String) (caller : Scope) (k : Nat)
    (m : Machine) (e : Error) : Prop where
  front : Statement.stepAll p.engine.writePolicy (p.start arguments caller)
    (p.statements.take k) = (m, none)
  natives : m.calls.map Call.native = (p.statements.take k).filterMap Statement.native?
  fails : ∃ s, p.statements[k]? = some s ∧ s.step p.engine.writePolicy m = .error e ∧
    s.FailsWith (m.scopes p.engine.writePolicy) e

variable {p : Procedure} {arguments : List String} {caller : Scope} {e : Error}

theorem run_of_length_ne (h : arguments.length ≠ p.parameters.length) :
    p.run arguments caller = (⟨p.locals, caller, []⟩,
      some (.argumentCount p.name p.parameters.length arguments.length)) := by
  rw [run, if_neg h]

theorem run_of_length_eq (h : arguments.length = p.parameters.length) :
    p.run arguments caller =
      Statement.stepAll p.engine.writePolicy (p.start arguments caller) p.statements := by
  rw [run, if_pos h]

/-- With the right number of arguments, an error is that of a statement. -/
theorem exists_stopsBefore (hlength : arguments.length = p.parameters.length)
    (h : (p.run arguments caller).2 = some e) :
    ∃ k, p.StopsBefore arguments caller k (p.run arguments caller).1 e := by
  have hrun : Statement.stepAll p.engine.writePolicy (p.start arguments caller) p.statements =
      ((p.run arguments caller).1, some e) := by
    rw [← run_of_length_eq hlength, ← h]
  obtain ⟨k, s, hs, hfront, hfails⟩ := Statement.stepAll_eq_error_iff.1 hrun
  have hnatives := Statement.natives_stepAll hfront
  exact ⟨k, hfront, hnatives, s, hs, hfails, Statement.step_eq_error_iff.1 hfails⟩

theorem StopsBefore.notCounting {k : Nat} {m : Machine}
    (h : p.StopsBefore arguments caller k m e) : NotCounting e := by
  obtain ⟨s, -, hfails, -⟩ := h.fails
  exact Statement.failsOnly_step _ _ _ e hfails

/-- **A run that fails stops in front of what fails.**  It complains about the number of arguments
exactly if that is not the number of different parameters, and then it has done nothing; every other
error is that of a statement, of which nothing was done; and no statement is carried out if one of its
operands has no value. -/
theorem run_stopsBefore_of_obtained (h : p.Obtained) (arguments : List String) (caller : Scope) :
    ((∃ e, (p.run arguments caller).2 = some e ∧ e.isArgumentCount = true) ↔
      arguments.length ≠ p.parameters.toFinset.card) ∧
    (∀ e, (p.run arguments caller).2 = some e → e.isArgumentCount = true →
      (p.run arguments caller).1 = ⟨p.locals, caller, []⟩) ∧
    (∀ e, (p.run arguments caller).2 = some e → e.isArgumentCount = false →
      ∃ k, p.StopsBefore arguments caller k (p.run arguments caller).1 e) ∧
    ∀ (m : Machine) (s : Statement) (x : TypedExpr) (e : Error), x ∈ s.operands →
      x.eval (m.scopes p.engine.writePolicy) = .error e →
      ∃ e', s.step p.engine.writePolicy m = .error e' := by
  have hcard : p.parameters.toFinset.card = p.parameters.length :=
    List.toFinset_card_of_nodup h.inStep.parameters_nodup
  rw [hcard]
  refine ⟨?_, ?_, ?_, fun m s x e hx he => Statement.exists_step_eq_error hx he⟩
  · constructor
    · rintro ⟨e, he, hcount⟩ hlength
      obtain ⟨k, hk⟩ := exists_stopsBefore hlength he
      rw [hk.notCounting] at hcount
      cases hcount
    · intro hlength
      rw [run_of_length_ne hlength]
      exact ⟨_, rfl, rfl⟩
  · intro e he hcount
    by_cases hlength : arguments.length = p.parameters.length
    · obtain ⟨k, hk⟩ := exists_stopsBefore hlength he
      rw [hk.notCounting] at hcount
      cases hcount
    · rw [run_of_length_ne hlength]
  · intro e he hcount
    by_cases hlength : arguments.length = p.parameters.length
    · exact exists_stopsBefore hlength he
    · rw [run_of_length_ne hlength] at he
      obtain rfl := Option.some.inj he
      cases hcount

theorem run_stopsBefore_of_obtained_sample :
    ∃ p : Procedure, p.Obtained ∧ p.parameters = ["x"] ∧
      (p.run ["2"] .empty).2 = some .divisionByZero ∧
      (∃ k, p.StopsBefore ["2"] .empty k (p.run ["2"] .empty).1 .divisionByZero) ∧
      (p.run ["2"] .empty).1.calls.map Call.native = ["log"] ∧
      (p.run [] .empty).1 = ⟨p.locals, .empty, []⟩ := by
  have hviews : (parse (Registry.ofNames ["log"]) {}
      "[f: param x; log[x]; int y: 1 / z; log[y];]").map (fun p => (p.parameters,
        (p.run ["2"] .empty).2, (p.run ["2"] .empty).1.calls.map Call.native)) =
      .ok (["x"], some .divisionByZero, ["log"]) := by
    with_unfolding_all rfl
  obtain ⟨p, hparse, hp⟩ := map_eq_ok_iff.1 hviews
  obtain ⟨hparameters, hp⟩ := Prod.mk.inj hp
  obtain ⟨herror, hnatives⟩ := Prod.mk.inj hp
  have hobtained : p.Obtained := .parse hparse
  obtain ⟨-, -, hstops, -⟩ := run_stopsBefore_of_obtained hobtained ["2"] .empty
  obtain ⟨hcount, hnothing, -, -⟩ := run_stopsBefore_of_obtained hobtained [] .empty
  have hwrong : ([] : List String).length ≠ p.parameters.toFinset.card := by
    rw [hparameters]
    decide
  obtain ⟨e, he, hisCount⟩ := hcount.2 hwrong
  exact ⟨p, hobtained, hparameters, herror, hstops _ herror rfl, hnatives, hnothing e he hisCount⟩

end Procedure

end TreeScript
