import TreeScript.Json.Basic
import TreeScript.Proofs.Equality

/-!
# What JSON keeps of a document

The members of a JSON object stand in the strict order of their names, and the value of each is that of the
last node with the name that is no placeholder.  So JSON forgets what a placeholder or a node behind which
another one with its key stands holds, the order of the nodes, and what is no JSON number.  Of trees in which
there is none of these it keeps everything, the key of the root apart.

- `Json.same`: JSON values that are equal.
- `Json.IsObjectOf`, `Json.isObjectOf_membersOf`: the members that several nodes stand for.
- `Node.IsExact`: nodes of which nothing gets lost; `Json.membersOf_eq_map`: they become members one by one.
- `Json.same_ofNode_iff`: exact nodes with one JSON value hold the same.
- `Json.ofNodes_keeps`: documents and nodes as JSON values.
-/

namespace TreeScript

/-! ### Nodes of which nothing gets lost -/

namespace Node

/-- A leaf whose decimal number, if it has one, is finite; a composite node whose children come in the
strict order of their keys, none of them a placeholder. -/
def IsExact : Node → Prop
  | leaf _ scalar => ∀ x, scalar = .decimal x → Number.isFinite x = true
  | branch _ children => KeyedList.StrictlyOrdered children.items ∧
      ∀ child ∈ children.items, child.isPlaceholder = false

/-- The node with another key. -/
def withKey (key : String) : Node → Node
  | leaf _ scalar => leaf key scalar
  | branch _ children => branch key children

/-- The last one of several nodes that is no placeholder and has a key. -/
def last? (key : String) (nodes : List Node) : Option Node :=
  nodes.reverse.find? fun node => !node.isPlaceholder && node.key == key

theorem last?_cons (key : String) (node : Node) (nodes : List Node) :
    last? key (node :: nodes) = (last? key nodes).or
      (if node.isPlaceholder = false ∧ node.key = key then some node else none) := by
  rw [last?, List.reverse_cons, List.find?_append, List.find?_singleton, last?]
  simp

theorem withKey_self (node : Node) : node.withKey node.key = node := by
  cases node <;> rfl

theorem key_eq_of_same {m n : Node} (h : m.same n = true) : m.key = n.key := by
  cases m with
  | leaf k s =>
    cases n with
    | leaf l t => exact beq_iff_eq.1 (Bool.and_eq_true_iff.1 h).1
    | branch l ys => cases h
  | branch k xs =>
    cases n with
    | leaf l t => cases h
    | branch l ys => exact (same_branch_iff.1 h).1

/-- Two nodes hold the same if they have one key, and do so whatever their keys are. -/
theorem same_content_iff {m n : Node} :
    m.content.same n.content = true ↔
      m.key = n.key ∧ (m.withKey n.key).content.same n.content = true := by
  constructor
  · intro h
    have hkey : m.key = n.key := by simpa [content] using key_eq_of_same h
    refine ⟨hkey, ?_⟩
    rwa [← hkey, withKey_self]
  · rintro ⟨hkey, h⟩
    rwa [← hkey, withKey_self] at h

end Node

namespace Json

open Node

/-! ### Equality -/

mutual

/-- Whether two JSON values are equal.  Decimal numbers are compared as numbers. -/
def same : Json → Json → Bool
  | null, null => true
  | boolean b, boolean c => b == c
  | integer m, integer n => m == n
  | decimal x, decimal y => x == y
  | string s, string t => s == t
  | object xs, object ys => sameMembers xs ys
  | _, _ => false

/-- Whether the members of two objects are equal. -/
def sameMembers : List (String × Json) → List (String × Json) → Bool
  | [], [] => true
  | (k, x) :: xs, (l, y) :: ys => k == l && same x y && sameMembers xs ys
  | _, _ => false

end

theorem sameMembers_iff {xs ys : List (String × Json)} :
    sameMembers xs ys = true ↔
      List.Forall₂ (fun x y => x.1 = y.1 ∧ x.2.same y.2 = true) xs ys := by
  induction xs generalizing ys with
  | nil => cases ys <;> simp [sameMembers]
  | cons x xs ih => cases ys <;> simp [sameMembers, ih]

/-- Finite scalars have one JSON value exactly if they are equal. -/
theorem same_ofScalar {s t : Scalar} (hs : ∀ x, s = .decimal x → Number.isFinite x = true)
    (ht : ∀ x, t = .decimal x → Number.isFinite x = true) :
    (ofScalar s).same (ofScalar t) = s.same t := by
  have hdecimal : ∀ x, Number.isFinite x = true → ofScalar (.decimal x) = .decimal x :=
    fun x hx => if_pos hx
  cases s with
  | decimal x =>
    rw [hdecimal x (hs x rfl)]
    cases t with
    | decimal y => rw [hdecimal y (ht y rfl), same, Scalar.same]
    | _ => rfl
  | _ =>
    cases t with
    | decimal y => rw [hdecimal y (ht y rfl)]; rfl
    | _ => rfl

/-- A scalar is no object. -/
theorem same_ofScalar_object (s : Scalar) (members : List (String × Json)) :
    (ofScalar s).same (object members) = false ∧ (object members).same (ofScalar s) = false := by
  cases s with
  | decimal x =>
    rw [ofScalar]
    split <;> exact ⟨rfl, rfl⟩
  | _ => exact ⟨rfl, rfl⟩

/-! ### Members -/

variable {name : String} {value : Json} {members : List (String × Json)} {node : Node} {nodes : List Node}

/-- Members in the strict order of their names. -/
def Sorted (members : List (String × Json)) : Prop := members.Pairwise fun x y => compare x.1 y.1 = .lt

theorem addMember_of_forall_lt (h : ∀ member ∈ members, compare name member.1 = .lt) :
    addMember name value members = (name, value) :: members := by
  cases members with
  | nil => rfl
  | cons member members =>
    have hlt := h member (by simp)
    simp [addMember, hlt]

theorem mem_names_addMember (name' : String) :
    name' ∈ (addMember name value members).map Prod.fst ↔ name' = name ∨ name' ∈ members.map Prod.fst := by
  induction members with
  | nil => simp [addMember]
  | cons member members ih =>
    rw [addMember]
    split
    · simp
    · next heq =>
      obtain rfl := Std.LawfulEqOrd.compare_eq_iff_eq.1 heq
      simp
    · rw [List.map_cons, List.mem_cons, ih, List.map_cons, List.mem_cons, or_left_comm]

theorem Sorted.addMember (h : Sorted members) (name : String) (value : Json) :
    Sorted (addMember name value members) := by
  induction members with
  | nil => exact List.pairwise_singleton _ _
  | cons member members ih =>
    obtain ⟨hmember, hmembers⟩ := List.pairwise_cons.1 h
    rw [Json.addMember]
    split
    · next hlt =>
      refine List.pairwise_cons.2 ⟨List.forall_mem_cons.2 ⟨hlt, fun other hother => ?_⟩, h⟩
      exact Std.TransCmp.lt_trans hlt (hmember other hother)
    · exact h
    · next hgt =>
      refine List.pairwise_cons.2 ⟨fun other hother => ?_, ih hmembers⟩
      -- the name of the other member is the new one, or stands behind
      have hname := (mem_names_addMember other.1).1 (List.mem_map_of_mem (f := Prod.fst) hother)
      obtain heq | hname := hname
      · rw [heq]
        exact Std.OrientedCmp.lt_of_gt hgt
      · obtain ⟨third, hthird, heq⟩ := List.mem_map.1 hname
        rw [← heq]
        exact hmember third hthird

theorem lookup_eq_none_of_forall_lt (h : ∀ member ∈ members, compare name member.1 = .lt) :
    members.lookup name = none := by
  refine List.lookup_eq_none_iff.2 fun member hmember => ?_
  have hlt := h member hmember
  refine bne_iff_ne.2 fun heq => ?_
  rw [heq] at hlt
  simp at hlt

theorem lookup_cons (member : String × Json) (members : List (String × Json)) (name : String) :
    (member :: members).lookup name = if member.1 = name then some member.2 else members.lookup name := by
  by_cases heq : member.1 = name
  · subst heq
    simp [List.lookup]
  · have hne : (name == member.1) = false := beq_false_of_ne (Ne.symm heq)
    simp [List.lookup, heq, hne]

/-- A member does not take the place of one with its name. -/
theorem Sorted.lookup_addMember (h : Sorted members) (name : String) (value : Json) (name' : String) :
    (Json.addMember name value members).lookup name' =
      (members.lookup name').or (if name = name' then some value else none) := by
  induction members with
  | nil => simp [Json.addMember, lookup_cons]
  | cons member members ih =>
    obtain ⟨hmember, hmembers⟩ := List.pairwise_cons.1 h
    rw [Json.addMember]
    split
    · next hlt =>
      -- the new name is not among the others
      have hnone : (member :: members).lookup name = none := by
        refine lookup_eq_none_of_forall_lt (List.forall_mem_cons.2 ⟨hlt, fun other hother => ?_⟩)
        exact Std.TransCmp.lt_trans hlt (hmember other hother)
      rw [lookup_cons]
      by_cases hname : name = name'
      · subst hname
        simp [hnone]
      · simp [hname]
    · next heq =>
      obtain rfl := Std.LawfulEqOrd.compare_eq_iff_eq.1 heq
      rw [lookup_cons]
      split <;> simp
    · rw [lookup_cons, lookup_cons, ih hmembers]
      split <;> simp

/-! ### The members of several nodes -/

theorem membersOf_cons (node : Node) (nodes : List Node) :
    membersOf (node :: nodes) = if node.isPlaceholder then membersOf nodes
      else addMember node.key (ofNode node) (membersOf nodes) := by
  rw [membersOf]

/-- An object whose members are several nodes: their names are the keys of the nodes that are no
placeholders, and the value of each is that of the last one of these with the key. -/
structure IsObjectOf (nodes : List Node) (members : List (String × Json)) : Prop where
  sorted : Sorted members
  mem_names_iff : ∀ name, name ∈ members.map Prod.fst ↔
    ∃ node ∈ nodes, node.isPlaceholder = false ∧ node.key = name
  lookup_eq : ∀ name, members.lookup name = (last? name nodes).map ofNode

theorem isObjectOf_membersOf (nodes : List Node) : IsObjectOf nodes (membersOf nodes) := by
  induction nodes with
  | nil => exact ⟨.nil, by simp [membersOf], fun name => rfl⟩
  | cons node nodes ih =>
    rw [membersOf_cons]
    by_cases hplaceholder : node.isPlaceholder = true
    · rw [if_pos hplaceholder]
      refine ⟨ih.sorted, fun name => ?_, fun name => ?_⟩
      · rw [ih.mem_names_iff]
        simp [hplaceholder]
      · rw [ih.lookup_eq, last?_cons]
        simp [hplaceholder]
    · rw [if_neg hplaceholder]
      have hplaceholder := Bool.eq_false_iff.2 hplaceholder
      refine ⟨ih.sorted.addMember _ _, fun name => ?_, fun name => ?_⟩
      · rw [mem_names_addMember, ih.mem_names_iff, List.exists_mem_cons_iff, and_iff_right hplaceholder,
          eq_comm]
      · rw [ih.sorted.lookup_addMember, ih.lookup_eq, last?_cons, Option.map_or, hplaceholder]
        by_cases hkey : node.key = name
        · simp [hkey]
        · simp [hkey]

/-- Nodes in the strict order of their keys become members one by one, if none is a placeholder. -/
theorem membersOf_eq_map (hordered : KeyedList.StrictlyOrdered nodes)
    (hplaceholder : ∀ node ∈ nodes, node.isPlaceholder = false) :
    membersOf nodes = nodes.map fun node => (node.key, ofNode node) := by
  induction nodes with
  | nil => rfl
  | cons node nodes ih =>
    obtain ⟨hnode, hnodes⟩ := List.pairwise_cons.1 hordered
    obtain ⟨hfirst, hothers⟩ := List.forall_mem_cons.1 hplaceholder
    rw [membersOf_cons, hfirst, ih hnodes hothers, List.map_cons]
    refine addMember_of_forall_lt fun member hmember => ?_
    obtain ⟨other, hother, rfl⟩ := List.mem_map.1 hmember
    exact hnode other hother

/-! ### Exact nodes -/

theorem ofNode_branch (key : String) (children : KeyedList Node) :
    ofNode (.branch key children) = .object (membersOf children.items) := by
  rw [ofNode]

theorem forall₂_congr_of_mem {α β : Type} {R S : α → β → Prop} {xs : List α} {ys : List β}
    (h : ∀ x ∈ xs, ∀ y ∈ ys, R x y ↔ S x y) : List.Forall₂ R xs ys ↔ List.Forall₂ S xs ys := by
  rw [List.forall₂_iff_zip, List.forall₂_iff_zip]
  refine and_congr_right fun _ => forall₂_congr fun x y => forall_congr' fun hzip => ?_
  exact h x (List.of_mem_zip hzip).1 y (List.of_mem_zip hzip).2

/-- **JSON keeps exact nodes**: they have one JSON value exactly if they hold the same, whatever their own
keys are. -/
theorem same_ofNode_iff {m n : Node} (hm : m.Everywhere IsExact) (hn : n.Everywhere IsExact) :
    (ofNode m).same (ofNode n) = true ↔ (m.withKey n.key).content.same n.content = true := by
  induction m using inductionOn generalizing n with
  | leaf k s =>
    cases n with
    | leaf l t =>
      rw [ofNode, ofNode, same_ofScalar hm.self hn.self, withKey, content, content,
        contentWith_leaf, contentWith_leaf, Node.same]
      simp [Node.key]
    | branch l ys =>
      rw [ofNode, ofNode_branch, (same_ofScalar_object s _).1]
      exact Iff.rfl
  | branch k xs room ih =>
    cases n with
    | leaf l t =>
      rw [ofNode_branch, ofNode, (same_ofScalar_object t _).2]
      exact Iff.rfl
    | branch l ys =>
      -- both objects have the children as members, whose keys are compared with their names
      obtain ⟨hnode, hchildren⟩ := everywhere_branch.1 hm
      obtain ⟨hother, hothers⟩ := everywhere_branch.1 hn
      rw [ofNode_branch, ofNode_branch, membersOf_eq_map hnode.1 hnode.2,
        membersOf_eq_map hother.1 hother.2, same, sameMembers_iff,
        List.forall₂_map_left_iff, List.forall₂_map_right_iff, withKey, content, content, contentWith_branch,
        contentWith_branch, same_branch_iff, List.forall₂_map_left_iff, List.forall₂_map_right_iff]
      rw [and_iff_right (show (Node.branch l ys).key = l from rfl), and_iff_right rfl]
      refine forall₂_congr_of_mem fun x hx y hy => ?_
      exact (and_congr_right' (ih x hx (hchildren x hx) (hothers y hy))).trans same_content_iff.symm

/-- **JSON keeps documents**: a document, and so each composite node, is the object whose members are its
nodes, and exact nodes with the same JSON value have the same shape, the same keys below the root, and
scalars that are equal. -/
theorem ofNodes_keeps :
    (∀ nodes, ∃ members, ofNodes nodes = .object members ∧ IsObjectOf nodes members) ∧
    (∀ key children, ∃ members, ofNode (.branch key children) = .object members ∧
      IsObjectOf children.items members) ∧
    ∀ m n : Node, m.Everywhere IsExact → n.Everywhere IsExact →
      ((ofNode m).same (ofNode n) = true ↔ (m.withKey n.key).content.same n.content = true) :=
  ⟨fun nodes => ⟨_, rfl, isObjectOf_membersOf nodes⟩,
    fun key children => ⟨_, ofNode_branch key children, isObjectOf_membersOf children.items⟩,
    fun _ _ => same_ofNode_iff⟩

theorem ofNodes_keeps_sample :
    let nodes : List Node := [.leaf "b" (.integer 1), .placeholder, .leaf "a" .empty, .leaf "b" (.integer 2)]
    let m : Node := .branch "m" ⟨[.leaf "" (.decimal 0), .branch "x" ⟨[.leaf "y" (.boolean true)], 1⟩], 2⟩
    let n : Node := .branch "n" ⟨[.leaf "" (.decimal (-0)), .branch "x" ⟨[.leaf "y" (.boolean true)], 8⟩], 4⟩
    (∃ members, ofNodes nodes = .object members ∧ members.lookup "b" = some (.integer 2)) ∧
      m.Everywhere IsExact ∧ n.Everywhere IsExact ∧ (ofNode m).same (ofNode n) = true ∧
      (m.withKey "n").content.same n.content = true := by
  intro nodes m n
  obtain ⟨hdocuments, -, hnodes⟩ := ofNodes_keeps
  obtain ⟨members, heq, hmembers⟩ := hdocuments nodes
  have hkeys : compare "" "x" = .lt := by with_unfolding_all rfl
  have hzero : Number.isFinite 0 = true := by with_unfolding_all rfl
  have hnegative : Number.isFinite (-0) = true := by with_unfolding_all rfl
  have hm : m.Everywhere IsExact := by
    simp [m, IsExact, KeyedList.StrictlyOrdered, Keyed.key, Node.key, Node.isPlaceholder, hkeys, hzero]
  have hn : n.Everywhere IsExact := by
    simp [n, IsExact, KeyedList.StrictlyOrdered, Keyed.key, Node.key, Node.isPlaceholder, hkeys, hnegative]
  have hsame : (ofNode m).same (ofNode n) = true := by with_unfolding_all rfl
  exact ⟨⟨members, heq, (hmembers.lookup_eq "b").trans rfl⟩, hm, hn, hsame, (hnodes m n hm hn).1 hsame⟩

end Json

end TreeScript
