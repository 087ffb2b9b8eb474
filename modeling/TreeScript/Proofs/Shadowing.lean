import TreeScript.Proofs.Assignments
import TreeScript.Proofs.Evaluation
import Mathlib.Logic.Relation

/-!
# What an evaluation does not see

An evaluation sees what its look-ups find.  So two scopes, one behind the other, are as good as one
scope that has the entries of the first one and those of the second one whose names the first one lacks;
and the entries that no look-up asks for, or that others stand in front of, may come, go and change.

- `EvaluatesAlike`, `evaluatesAlike_of_agree`: the same values and errors from the same look-ups.
- `Scopes.joined`, `Scopes.lookup_joined`: one scope in place of two.
- `EditsEntry`: a change of the entries with one name; what others have is what it was.
- `Scopes.Unseen`, `Scopes.Clear`: changes that an evaluation does not see, and what they preserve.
- `Expr.seesLookupsOnly`: all of it.
-/

namespace TreeScript

open KeyedList

/-! ### The same look-ups -/

/-- The evaluations of an expression give the same value or the same error in two pairs of scopes. -/
structure EvaluatesAlike (e : Expr) (s t : Scopes) : Prop where
  truth : e.truth s = e.truth t
  decimal : e.decimal s = e.decimal t
  typed : ∀ d, TypedExpr.eval s ⟨e, d⟩ = TypedExpr.eval t ⟨e, d⟩

theorem evaluatesAlike_of_agree {e : Expr} {s t : Scopes} (h : Scopes.Agree e.literals s t) :
    EvaluatesAlike e s t :=
  ⟨Expr.truth_congr h, Expr.decimal_congr h, fun _ => TypedExpr.eval_congr h⟩

namespace Scopes

theorem Agree.trans {names : List String} {s t u : Scopes} (hst : Agree names s t)
    (htu : Agree names t u) : Agree names s u :=
  fun name hname => (hst name hname).trans (htu name hname)

/-! ### One scope in place of two -/

theorem lookup_none (scope : Scope) (name : String) :
    (Scopes.mk scope none).lookup name = scope.find? name := by
  show (scope.find? name <|> none) = _
  cases scope.find? name <;> rfl

/-- The entries of a scope whose names another one lacks. -/
def unshadowed (primary fallback : Scope) : List Node :=
  fallback.items.filter fun node => !primary.contains node.key

/-- The entries of a scope together with those of a second one whose names it lacks. -/
def joined (primary fallback : Scope) : Scope := primary.insertAll (unshadowed primary fallback)

variable {primary fallback : Scope}

theorem isStableSort_joined (h : Ordered primary.items) (fallback : Scope) :
    IsStableSort (primary.items ++ unshadowed primary fallback) (joined primary fallback).items := by
  have hself : IsStableSort primary.items primary.items := ⟨h, fun _ => rfl⟩
  exact hself.insertAll _

theorem strictlyOrdered_joined (hprimary : StrictlyOrdered primary.items)
    (hfallback : StrictlyOrdered fallback.items) :
    StrictlyOrdered (joined primary fallback).items := by
  have hstable := isStableSort_joined hprimary.ordered fallback
  have hrest : StrictlyOrdered (unshadowed primary fallback) :=
    hfallback.sublist List.filter_sublist
  have hnodup : ∀ {xs : List Node}, StrictlyOrdered xs → (xs.map Keyed.key).Nodup := by
    intro xs hxs
    refine (strictlyOrdered_iff_keys.1 hxs).imp fun {k l} hkl heq => ?_
    rw [heq] at hkl
    simp at hkl
  refine hstable.ordered.strictlyOrdered ?_
  rw [(hstable.perm.map Keyed.key).nodup_iff, List.map_append]
  refine List.nodup_append.2 ⟨hnodup hprimary, hnodup hrest, ?_⟩
  -- a name of both scopes is a name that the primary one does not lack
  rintro name hname _ hrest rfl
  obtain ⟨node, hnode, rfl⟩ := List.mem_map.1 hrest
  have hlacks : (!primary.contains node.key) = true := (List.mem_filter.1 hnode).2
  have hcontains : primary.contains node.key = true := contains_iff_mem_keys.2 hname
  rw [hcontains] at hlacks
  cases hlacks

theorem find?_unshadowed {name : String} (h : ¬primary.contains name = true) :
    (unshadowed primary fallback).find? (hasKey name) = fallback.find? name := by
  rw [unshadowed, List.find?_filter, KeyedList.find?]
  congr 1
  funext node
  by_cases hkey : hasKey name node = true
  · have hname : node.key = name := hasKey_iff.1 hkey
    simp [hkey, hname, h]
  · simp [hkey]

/-- A look-up does not tell one scope from two. -/
theorem lookup_joined (hprimary : Ordered primary.items) (fallback : Scope) (name : String) :
    (Scopes.mk (joined primary fallback) none).lookup name =
      (Scopes.mk primary (some fallback)).lookup name := by
  rw [lookup_none, lookup_eq, KeyedList.find?, (isStableSort_joined hprimary fallback).find?_eq,
    List.find?_append]
  cases hfind : primary.find? name with
  | some node =>
    rw [KeyedList.find?] at hfind
    rw [hfind]
    rfl
  | none =>
    rw [find?_unshadowed (find?_eq_none_iff.1 hfind)]
    rw [KeyedList.find?] at hfind
    rw [hfind]

end Scopes

/-! ### Changes of the entries with one name -/

/-- The second scope is the first one with a change of its entries with a name: one came, the first one
went, or one of them was changed and kept its name. -/
inductive EditsEntry (name : String) (scope : Scope) : Scope → Prop
  | add {node : Node} (hkey : node.key = name) : EditsEntry name scope (scope.insert node)
  | remove : EditsEntry name scope (scope.erase name)
  | change (older : Nat) {change : Node → Node} (hkeeps : ∀ node, (change node).key = node.key) :
      EditsEntry name scope (scope.updateNth name older change)

namespace EditsEntry

variable {name other : String} {scope scope' : Scope}

theorem ordered (h : EditsEntry name scope scope') (hscope : Ordered scope.items) :
    Ordered scope'.items := by
  cases h with
  | add hkey => exact hscope.insert _
  | remove => exact hscope.sublist List.eraseP_sublist
  | change older hkeeps =>
    have hkeys := map_key_modifyNth (p := hasKey name) hkeeps older scope.items
    rw [ordered_iff_keys] at hscope ⊢
    rwa [← hkeys] at hscope

/-- The entries with another name are what they were. -/
theorem filter_eq (h : EditsEntry name scope scope') (hscope : Ordered scope.items)
    (hother : other ≠ name) :
    scope'.items.filter (hasKey other) = scope.items.filter (hasKey other) := by
  have hcompare : compare name other ≠ .eq := fun heq =>
    hother (Std.LawfulEqOrd.compare_eq_iff_eq.1 heq).symm
  cases h with
  | @add node hkey =>
    have hnot : ¬hasKey other node = true := fun hhas => hother (hasKey_iff.1 hhas ▸ hkey)
    rw [hscope.filter_insert, List.filter_append, List.filter_cons_of_neg hnot, List.filter_nil,
      List.append_nil]
  | remove => exact filter_eraseP_of_disjoint (fun _ => hasKey_ne hcompare) scope.items
  | change older hkeeps =>
    refine filter_modifyNth_of_disjoint (fun node => ?_) (fun _ => hasKey_ne hcompare) older scope.items
    exact congrArg (fun key => decide (compare key other = .eq)) (hkeeps node)

theorem find?_eq (h : EditsEntry name scope scope') (hscope : Ordered scope.items)
    (hother : other ≠ name) : scope'.find? other = scope.find? other := by
  rw [KeyedList.find?, KeyedList.find?, ← List.head?_filter, ← List.head?_filter,
    h.filter_eq hscope hother]

end EditsEntry

namespace Scopes

/-! ### Changes that are not seen -/

/-- A look-up of a name by halving, in one scope and then in the other. -/
def search? (scopes : Scopes) (name : String) : Option Node :=
  scopes.primary.search? name <|> scopes.fallback.bind (·.search? name)

/-- Scopes in order with one entry for each name. -/
structure Sorted (scopes : Scopes) : Prop where
  primary : StrictlyOrdered scopes.primary.items
  fallback : ∀ scope ∈ scopes.fallback, StrictlyOrdered scope.items

/-- A change of entries that no look-up of the names finds: entries with another name, or entries of the
fallback whose name the primary scope has. -/
inductive Unseen (names : List String) : Scopes → Scopes → Prop
  | primary {name : String} {scope scope' : Scope} (hname : name ∉ names)
      (h : EditsEntry name scope scope') (fallback : Option Scope) :
      Unseen names ⟨scope, fallback⟩ ⟨scope', fallback⟩
  | fallback {name : String} {scope scope' : Scope} (primary : Scope)
      (hname : primary.contains name = true ∨ name ∉ names) (h : EditsEntry name scope scope') :
      Unseen names ⟨primary, some scope⟩ ⟨primary, some scope'⟩

/-- Scopes in order in which a look-up of any of the names has one entry to find at most.  Other names,
and those of shadowed entries, may repeat. -/
structure Clear (names : List String) (scopes : Scopes) : Prop where
  primary_ordered : Ordered scopes.primary.items
  fallback_ordered : ∀ scope ∈ scopes.fallback, Ordered scope.items
  primary_filter_eq : ∀ name ∈ names,
    scopes.primary.items.filter (hasKey name) = (scopes.primary.find? name).toList
  fallback_filter_eq : ∀ scope ∈ scopes.fallback, ∀ name ∈ names, ¬scopes.primary.contains name = true →
    scope.items.filter (hasKey name) = (scope.find? name).toList

variable {names : List String} {s t : Scopes}

theorem Sorted.clear (h : s.Sorted) (names : List String) : s.Clear names where
  primary_ordered := h.primary.ordered
  fallback_ordered scope hscope := (h.fallback scope hscope).ordered
  primary_filter_eq name _ := h.primary.filter_eq name
  fallback_filter_eq scope hscope name _ _ := (h.fallback scope hscope).filter_eq name

/-- Halving finds what a walk finds. -/
theorem Clear.search?_eq (h : s.Clear names) {name : String} (hname : name ∈ names) :
    s.search? name = s.lookup name := by
  have hprimary := h.primary_ordered.search?_eq (h.primary_filter_eq name hname)
  show (s.primary.search? name <|> _) = (s.primary.find? name <|> _)
  rw [hprimary]
  cases hfind : s.primary.find? name with
  | some node => rfl
  | none =>
    cases hfallback : s.fallback with
    | none => rfl
    | some scope =>
      have hone := h.fallback_filter_eq scope hfallback name hname (find?_eq_none_iff.1 hfind)
      exact (h.fallback_ordered scope hfallback).search?_eq hone

/-- One change that is not seen: the look-ups of the names find what they found. -/
theorem Unseen.agree (h : Unseen names s t) (hs : s.Clear names) : Agree names s t := by
  intro other hother
  cases h with
  | @primary name scope scope' hname hedits fallback =>
    have hne : other ≠ name := fun heq => hname (heq ▸ hother)
    have hfind := hedits.find?_eq hs.primary_ordered hne
    show (scope.find? other <|> _) = (scope'.find? other <|> _)
    rw [hfind]
  | @fallback name scope scope' primary hname hedits =>
    rw [lookup_eq, lookup_eq]
    cases hfind : primary.find? other with
    | some node => rfl
    | none =>
      have hne : other ≠ name := by
        rintro rfl
        obtain hshadowed | hnot := hname
        · exact find?_eq_none_iff.1 hfind hshadowed
        · exact hnot hother
      rw [hedits.find?_eq (hs.fallback_ordered scope rfl) hne]

theorem Unseen.clear (h : Unseen names s t) (hs : s.Clear names) : t.Clear names := by
  cases h with
  | @primary name scope scope' hname hedits fallback =>
    have hne : ∀ other ∈ names, other ≠ name := fun other hother heq => hname (heq ▸ hother)
    have hfind : ∀ other ∈ names, scope'.find? other = scope.find? other := fun other hother =>
      hedits.find?_eq hs.primary_ordered (hne other hother)
    refine ⟨hedits.ordered hs.primary_ordered, hs.fallback_ordered, fun other hother => ?_,
      fun back hback other hother hlacks => ?_⟩
    · show scope'.items.filter _ = (scope'.find? other).toList
      rw [hedits.filter_eq hs.primary_ordered (hne other hother), hfind other hother]
      exact hs.primary_filter_eq other hother
    · refine hs.fallback_filter_eq back hback other hother ?_
      rw [← find?_eq_none_iff] at hlacks ⊢
      exact (hfind other hother).symm.trans hlacks
  | @fallback name scope scope' primary hname hedits =>
    have hscope := hs.fallback_ordered scope rfl
    refine ⟨hs.primary_ordered, ?_, hs.primary_filter_eq, ?_⟩
    · rintro _ ⟨⟩
      exact hedits.ordered hscope
    · rintro _ ⟨⟩ other hother hlacks
      have hne : other ≠ name := by
        rintro rfl
        obtain hshadowed | hnot := hname
        · exact hlacks hshadowed
        · exact hnot hother
      rw [hedits.filter_eq hscope hne, hedits.find?_eq hscope hne]
      exact hs.fallback_filter_eq scope rfl other hother hlacks

/-- Any number of changes that are not seen. -/
theorem agree_of_unseen (hs : s.Clear names) (h : Relation.ReflTransGen (Unseen names) s t) :
    Agree names s t ∧ t.Clear names := by
  induction h with
  | refl => exact ⟨fun _ _ => rfl, hs⟩
  | tail _ hstep ih =>
    obtain ⟨hagree, hclear⟩ := ih
    exact ⟨hagree.trans (hstep.agree hclear), hstep.clear hclear⟩

end Scopes

/-- **An evaluation sees its look-ups only.**  The same look-ups of its literals give the same value or
the same error; two scopes give what one scope with the unshadowed entries of both gives; and changes of
entries that are shadowed, or whose names are not among its literals, are not seen, however many they
are, while halving goes on finding what a walk finds. -/
theorem Expr.seesLookupsOnly (e : Expr) :
    (∀ s t, Scopes.Agree e.literals s t → EvaluatesAlike e s t) ∧
    (∀ primary fallback : Scope, StrictlyOrdered primary.items → StrictlyOrdered fallback.items →
      StrictlyOrdered (Scopes.joined primary fallback).items ∧
      (Scopes.joined primary fallback).items.Perm
        (primary.items ++ Scopes.unshadowed primary fallback) ∧
      EvaluatesAlike e ⟨primary, some fallback⟩ ⟨Scopes.joined primary fallback, none⟩) ∧
    (∀ s t, s.Sorted → Relation.ReflTransGen (Scopes.Unseen e.literals) s t →
      EvaluatesAlike e s t ∧ ∀ name ∈ e.literals, t.search? name = t.lookup name) := by
  refine ⟨fun s t h => evaluatesAlike_of_agree h, fun primary fallback hprimary hfallback => ?_,
    fun s t hs h => ?_⟩
  · have hlookups : Scopes.Agree e.literals ⟨primary, some fallback⟩
        ⟨Scopes.joined primary fallback, none⟩ :=
      fun name _ => (Scopes.lookup_joined hprimary.ordered fallback name).symm
    exact ⟨Scopes.strictlyOrdered_joined hprimary hfallback,
      (Scopes.isStableSort_joined hprimary.ordered fallback).perm, evaluatesAlike_of_agree hlookups⟩
  · obtain ⟨hagree, hclear⟩ := Scopes.agree_of_unseen (hs.clear e.literals) h
    exact ⟨evaluatesAlike_of_agree hagree, fun name hname => hclear.search?_eq hname⟩

theorem Expr.seesLookupsOnly_sample :
    let e : Expr := .binary .plus (.literal "x") (.literal "y")
    let primary : Scope := .ofList [.leaf "x" (.integer 1)]
    let fallback : Scope := .ofList [.leaf "x" (.integer 7), .leaf "y" (.integer 2)]
    let fewer : Scope := fallback.erase "x"
    let more : Scope := primary.insert (.leaf "a" (.integer 7))
    (Scopes.joined primary fallback).keys = ["x", "y"] ∧
      EvaluatesAlike e ⟨primary, some fallback⟩ ⟨Scopes.joined primary fallback, none⟩ ∧
      EvaluatesAlike e ⟨primary, some fallback⟩ ⟨more, some fewer⟩ ∧
      e.literals = ["x", "y"] ∧ more.keys = ["a", "x"] ∧ fewer.keys = ["y"] := by
  intro e primary fallback fewer more
  have hprimary : StrictlyOrdered primary.items := by
    rw [strictlyOrdered_iff_keys]
    with_unfolding_all decide
  have hfallback : StrictlyOrdered fallback.items := by
    rw [strictlyOrdered_iff_keys]
    with_unfolding_all decide
  have hsorted : Scopes.Sorted ⟨primary, some fallback⟩ := by
    refine ⟨hprimary, ?_⟩
    rintro _ ⟨⟩
    exact hfallback
  have hgoes : Scopes.Unseen e.literals ⟨primary, some fallback⟩ ⟨primary, some fewer⟩ :=
    .fallback primary (.inl (by with_unfolding_all rfl)) .remove
  have hcomes : Scopes.Unseen e.literals ⟨primary, some fewer⟩ ⟨more, some fewer⟩ :=
    .primary (by decide) (.add rfl) _
  obtain ⟨-, hjoined, hunseen⟩ := e.seesLookupsOnly
  obtain ⟨-, -, halike⟩ := hjoined primary fallback hprimary hfallback
  obtain ⟨hedited, -⟩ := hunseen _ _ hsorted (.tail (.single hgoes) hcomes)
  exact ⟨by with_unfolding_all rfl, halike, hedited, rfl, by with_unfolding_all rfl,
    by with_unfolding_all rfl⟩

end TreeScript
