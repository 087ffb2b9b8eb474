import TreeScript.Procedure.Run
import TreeScript.Proofs.Maps

/-!
# Assignments and look-ups

A policy orders the two scopes of a run twice: a look-up goes through them in one order, and an assignment
chooses between them by a test of its own.  The two orders agree: behind an assignment a look-up finds the
value that was written, and for every other name it finds what it found before.  Of the two scopes only
one is written, in one place.

- `SetsOne`, `setsOne_write`: the items of a scope in which one variable is written.
- `represents_write`: such a scope as a map.
- `Scopes.lookup_write_primary`, `Scopes.lookup_write_fallback`: the look-ups through two scopes.
- `Machine.lookup_assign`, `Machine.assigned_of_strictlyOrdered`: an assignment under either policy.
-/

namespace TreeScript

open KeyedList

/-! ### One scope -/

/-- Two lists of nodes that differ in one place: there the second one has the given node, and the first
one has an older node with its key, or no node, and then none with its key. -/
inductive SetsOne (node : Node) : List Node → List Node → Prop
  | changed {old : Node} (hkey : old.key = node.key) (front rest : List Node) :
      SetsOne node (front ++ old :: rest) (front ++ node :: rest)
  | added {front rest : List Node} (hfresh : ∀ n ∈ front ++ rest, n.key ≠ node.key) :
      SetsOne node (front ++ rest) (front ++ node :: rest)

variable {scope : Scope}

/-- The entry of a name gets a scalar where it stands. -/
theorem setsOne_update {name : String} (hname : scope.contains name = true) (scalar : Scalar) :
    SetsOne (.leaf name scalar) scope.items (scope.update name (·.setScalar scalar)).items := by
  have hsplit := List.takeWhile_append_dropWhile (p := (!hasKey name ·)) (l := scope.items)
  have hhead := Text.not_head?_dropWhile (!hasKey name ·) scope.items
  show SetsOne _ scope.items (scope.items.takeWhile (!hasKey name ·) ++
    (scope.items.dropWhile (!hasKey name ·)).modifyHead (·.setScalar scalar))
  cases hdrop : scope.items.dropWhile (!hasKey name ·) with
  | nil =>
    obtain ⟨x, hx, hkey⟩ := List.any_eq_true.1 hname
    have hnot := List.dropWhile_eq_nil_iff.1 hdrop x hx
    rw [hkey] at hnot
    cases hnot
  | cons old rest =>
    rw [hdrop] at hsplit hhead
    have hkey : old.key = name := by
      have hhas := hhead old rfl
      rw [Bool.not_eq_true, Bool.not_eq_false'] at hhas
      exact hasKey_iff.1 hhas
    have hchanged : SetsOne (.leaf name scalar)
        (scope.items.takeWhile (!hasKey name ·) ++ old :: rest)
        (scope.items.takeWhile (!hasKey name ·) ++ .leaf name scalar :: rest) :=
      .changed hkey _ rest
    rw [hsplit] at hchanged
    have hnew : old.setScalar scalar = .leaf name scalar := by rw [Node.setScalar, hkey]
    show SetsOne _ _ (_ ++ old.setScalar scalar :: rest)
    rwa [hnew]

/-- A new name comes in between the entries that are there. -/
theorem setsOne_insert {node : Node} (hname : ¬scope.contains node.key = true) :
    SetsOne node scope.items (scope.insert node).items := by
  have hsplit := List.takeWhile_append_dropWhile (p := notAfter node) (l := scope.items)
  have hadded : SetsOne node
      (scope.items.takeWhile (notAfter node) ++ scope.items.dropWhile (notAfter node))
      (scope.insert node).items := by
    refine .added fun n hn hkey => hname ?_
    rw [hsplit] at hn
    exact List.any_eq_true.2 ⟨n, hn, hasKey_iff.2 hkey⟩
  rwa [hsplit] at hadded

/-- To write a variable changes one entry of its scope, or adds one. -/
theorem setsOne_write (scope : Scope) (name : String) (scalar : Scalar) :
    SetsOne (.leaf name scalar) scope.items (Machine.write scope name scalar).items := by
  unfold Machine.write
  by_cases hname : scope.contains name = true
  · rw [if_pos hname]
    exact setsOne_update hname scalar
  · rw [if_neg hname]
    exact setsOne_insert hname

/-- To write a variable is to update the map that the scope stands for. -/
theorem represents_write {map : String → Option Node} (h : scope.Represents map) (name : String)
    (scalar : Scalar) :
    (Machine.write scope name scalar).Represents
      (Function.update map name (some (.leaf name scalar))) := by
  unfold Machine.write
  by_cases hname : scope.contains name = true
  · rw [if_pos hname]
    have hkeeps : ∀ node : Node, Keyed.key (node.setScalar scalar) = Keyed.key node := fun _ => rfl
    have hupdate := h.update name hkeeps
    rw [h.contains_eq, Option.isSome_iff_exists] at hname
    obtain ⟨old, hold⟩ := hname
    have hkey : old.key = name := (h.eq_some_iff.1 hold).2
    have hnew : (map name).map (·.setScalar scalar) = some (.leaf name scalar) := by
      rw [hold, ← hkey]
      rfl
    rwa [hnew] at hupdate
  · rw [if_neg hname, ← replace_of_not_contains hname]
    exact h.replace (.leaf name scalar)

theorem strictlyOrdered_write (h : StrictlyOrdered scope.items) (name : String) (scalar : Scalar) :
    StrictlyOrdered (Machine.write scope name scalar).items :=
  (represents_write (.self h) name scalar).ordered

theorem find?_write (h : StrictlyOrdered scope.items) (name : String) (scalar : Scalar) :
    (Machine.write scope name scalar).find? =
      Function.update scope.find? name (some (.leaf name scalar)) :=
  funext (represents_write (.self h) name scalar).find?_eq

/-! ### Two scopes, one behind the other -/

namespace Scopes

variable {primary fallback : Scope} {name : String}

/-- A name that the primary scope lacks is looked up in the other one. -/
theorem lookup_eq (primary fallback : Scope) (k : String) :
    (Scopes.mk primary (some fallback)).lookup k = (primary.find? k).or (fallback.find? k) := by
  show (primary.find? k <|> fallback.find? k) = _
  cases primary.find? k <;> rfl

theorem lookup_write_primary (h : StrictlyOrdered primary.items) (name : String) (scalar : Scalar) :
    (Scopes.mk (Machine.write primary name scalar) (some fallback)).lookup =
      Function.update (Scopes.mk primary (some fallback)).lookup name (some (.leaf name scalar)) := by
  funext k
  rw [lookup_eq, find?_write h]
  by_cases hk : k = name
  · subst hk
    rw [Function.update_self, Function.update_self, Option.some_or]
  · rw [Function.update_of_ne hk, Function.update_of_ne hk, lookup_eq]

/-- What is written behind the primary scope is seen if the primary scope lacks the name. -/
theorem lookup_write_fallback (hprimary : ¬primary.contains name = true)
    (h : StrictlyOrdered fallback.items) (scalar : Scalar) :
    (Scopes.mk primary (some (Machine.write fallback name scalar))).lookup =
      Function.update (Scopes.mk primary (some fallback)).lookup name (some (.leaf name scalar)) := by
  funext k
  rw [lookup_eq, find?_write h]
  by_cases hk : k = name
  · subst hk
    rw [Function.update_self, Function.update_self, find?_eq_none_iff.2 hprimary, Option.none_or]
  · rw [Function.update_of_ne hk, Function.update_of_ne hk, lookup_eq]

end Scopes

namespace Machine

variable {policy : WritePolicy} {m : Machine} {name : String}

/-- Behind an assignment a look-up finds the value that was written, and for every other name it finds
what it found before. -/
theorem lookup_assign (policy : WritePolicy) (hcaller : StrictlyOrdered m.caller.items)
    (hlocals : StrictlyOrdered m.locals.items) (name : String) (value : Value) :
    ((m.assign policy name value).scopes policy).lookup =
      Function.update (m.scopes policy).lookup name (some (.leaf name value.toScalar)) := by
  unfold assign
  by_cases hwrites : m.writesCaller policy name = true
  · rw [if_pos hwrites]
    cases policy with
    | callerFirst => exact Scopes.lookup_write_primary hcaller name value.toScalar
    | localFirst =>
      -- the caller is written only where the procedure lacks the name
      obtain ⟨hlacks, -⟩ := Bool.and_eq_true_iff.1 hwrites
      exact Scopes.lookup_write_fallback (by simpa using hlacks) hcaller value.toScalar
  · rw [if_neg hwrites]
    cases policy with
    | callerFirst => exact Scopes.lookup_write_fallback hwrites hlocals value.toScalar
    | localFirst => exact Scopes.lookup_write_primary hlocals name value.toScalar

/-- What an assignment of a value to a name makes of a state. -/
structure Assigned (policy : WritePolicy) (name : String) (value : Value) (before after : Machine) :
    Prop where
  /-- A look-up of the name finds a leaf with the value. -/
  lookup_self : (after.scopes policy).lookup name = some (.leaf name value.toScalar)
  /-- A look-up of another name finds what it found before. -/
  lookup_other : ∀ other, other ≠ name →
    (after.scopes policy).lookup other = (before.scopes policy).lookup other
  caller_ordered : StrictlyOrdered after.caller.items
  locals_ordered : StrictlyOrdered after.locals.items
  /-- Halving still finds in each scope what a walk finds. -/
  search?_eq : ∀ k, after.caller.search? k = after.caller.find? k ∧
    after.locals.search? k = after.locals.find? k
  /-- One of the scopes is as it was, and in the other one a single entry is changed or new. -/
  one_entry :
    (after.caller = before.caller ∧
      SetsOne (.leaf name value.toScalar) before.locals.items after.locals.items) ∨
    (after.locals = before.locals ∧
      SetsOne (.leaf name value.toScalar) before.caller.items after.caller.items)
  calls_eq : after.calls = before.calls

/-- **The orders of reading and of writing agree**, whichever of the two scopes have the name. -/
theorem assigned_of_strictlyOrdered (policy : WritePolicy) (hcaller : StrictlyOrdered m.caller.items)
    (hlocals : StrictlyOrdered m.locals.items) (name : String) (value : Value) :
    Assigned policy name value m (m.assign policy name value) := by
  have hlookup := lookup_assign policy hcaller hlocals name value
  have hordered : StrictlyOrdered (m.assign policy name value).caller.items ∧
      StrictlyOrdered (m.assign policy name value).locals.items := by
    unfold assign
    split
    · exact ⟨strictlyOrdered_write hcaller name value.toScalar, hlocals⟩
    · exact ⟨hcaller, strictlyOrdered_write hlocals name value.toScalar⟩
  constructor
  case lookup_self => rw [hlookup, Function.update_self]
  case lookup_other =>
    intro other hother
    rw [hlookup, Function.update_of_ne hother]
  case caller_ordered => exact hordered.1
  case locals_ordered => exact hordered.2
  case search?_eq =>
    intro k
    exact ⟨hordered.1.search?_eq k, hordered.2.search?_eq k⟩
  case one_entry =>
    unfold assign
    split
    · exact Or.inr ⟨rfl, setsOne_write m.caller name value.toScalar⟩
    · exact Or.inl ⟨rfl, setsOne_write m.locals name value.toScalar⟩
  case calls_eq =>
    unfold assign
    split <;> rfl

theorem assigned_of_strictlyOrdered_sample :
    ∃ m : Machine, m.caller.keys = ["hp", "mp"] ∧ m.locals.keys = ["hp", "n"] ∧
      StrictlyOrdered m.caller.items ∧ StrictlyOrdered m.locals.items ∧
      Assigned .callerFirst "hp" (.integer 7) m (m.assign .callerFirst "hp" (.integer 7)) ∧
      Assigned .localFirst "mp" (.integer 7) m (m.assign .localFirst "mp" (.integer 7)) ∧
      Assigned .localFirst "i" (.integer 7) m (m.assign .localFirst "i" (.integer 7)) := by
  let m : Machine :=
    { caller := ⟨[.leaf "hp" (.integer 10), .leaf "mp" (.integer 1)], 2⟩
      locals := ⟨[.leaf "hp" .empty, .leaf "n" (.integer 0)], 2⟩
      calls := [] }
  have hcaller : StrictlyOrdered m.caller.items := by
    rw [strictlyOrdered_iff_keys]
    with_unfolding_all decide
  have hlocals : StrictlyOrdered m.locals.items := by
    rw [strictlyOrdered_iff_keys]
    with_unfolding_all decide
  exact ⟨m, rfl, rfl, hcaller, hlocals,
    assigned_of_strictlyOrdered .callerFirst hcaller hlocals "hp" (.integer 7),
    assigned_of_strictlyOrdered .localFirst hcaller hlocals "mp" (.integer 7),
    assigned_of_strictlyOrdered .localFirst hcaller hlocals "i" (.integer 7)⟩

end Machine

end TreeScript
