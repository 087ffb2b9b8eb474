import TreeScript.Proofs.Content
import TreeScript.Proofs.Maps
import TreeScript.Proofs.Recognition

/-!
# Trees as nested finite maps

A list of children does not keep its keys apart by itself: that a composite node has at most one child
for each key is due to the way in which children are put in.  So the strict order of the keys is carried
through everything that makes or changes a tree, at every depth.  It makes each composite node a finite
map, on which adding and removing act as on a map, and a change at the end of a path leaves everything
off the path as it is.

- `Change`, `changeAt`, `Obtained`: the trees that a program can have.
- `IsKept`, `forall_of_readAll`, `Obtained.everywhere`: what is kept at every depth, such as the order
  of the children.
- `descend?_updateAt`, `updateAt_eq_self`, `descend?_updateAt_of_diverge`: a change at the end of a path.
- `IsMap`, `ActsAsMap`, `actsAsMap_of_obtained`: composite nodes as finite maps.
-/

namespace TreeScript.Node

open Std

/-! ### Changes, and the trees that come from them -/

/-- A change of a node. -/
inductive Change where
  | add (child : Node)
  | remove (k : String)
  | setScalar (scalar : Scalar)
  | setText (written : String)

/-- The node after a change.  A change that fails leaves it as it is. -/
def Change.apply : Change → Node → Node
  | .add child, node =>
    match node.add child with
    | .ok changed => changed
    | .error _ => node
  | .remove k, node => (node.remove k).2
  | .setScalar scalar, node => node.setScalar scalar
  | .setText written, node => node.setText written

/-- A tree after a change of the node at the end of a path, if there is one. -/
def changeAt (node : Node) (path : List String) (change : Change) : Node :=
  updateAt change.apply path node

/-- The trees that a program can have: made from parts, read from a text, or changed. -/
inductive Obtained : Node → Prop
  | leaf (key : String) (scalar : Scalar) : Obtained (leaf key scalar)
  | leafOfText (key written : String) : Obtained (leafOfText key written)
  | placeholder : Obtained placeholder
  | composite (key : String) {children : List Node} (h : ∀ n ∈ children, Obtained n) :
      Obtained (composite key children)
  | parse {text : String} {node : Node} (h : parse text = .ok node) : Obtained node
  | parseAll {text : String} {nodes : List Node} (h : parseAll text = .ok nodes) {node : Node}
      (hnode : node ∈ nodes) : Obtained node
  | changed {node : Node} (h : Obtained node) (path : List String) {change : Change}
      (hchild : ∀ child, change = .add child → Obtained child) : Obtained (node.changeAt path change)

/-! ### What is kept at every depth -/

/-- The children of a node have strictly increasing keys. -/
def HasOrderedChildren (node : Node) : Prop :=
  ∀ children ∈ node.children?, KeyedList.StrictlyOrdered children.items

/-- A property that all nodes have when they are made, and keep while children come, go and change. -/
structure IsKept (P : Node → Prop) : Prop where
  leaf : ∀ key scalar, P (leaf key scalar)
  composite : ∀ key ns, P (composite key ns)
  add : ∀ key children child, P (branch key children) → P (branch key (children.replace child))
  remove : ∀ key children k, P (branch key children) → P (branch key (children.erase k))
  update : ∀ key children k change, (∀ n, (change n).key = n.key) → P (branch key children) →
    P (branch key (children.update k change))

variable {P : Node → Prop} {node child : Node} {key : String} {children : KeyedList Node}
  {scalar : Scalar}

theorem hasOrderedChildren_branch :
    (branch key children).HasOrderedChildren ↔ KeyedList.StrictlyOrdered children.items := by
  constructor
  · intro h
    exact h children rfl
  · rintro h _ ⟨⟩
    exact h

theorem isKept_hasOrderedChildren : IsKept HasOrderedChildren where
  leaf key scalar := by rintro _ ⟨⟩
  composite key ns :=
    hasOrderedChildren_branch.2 (KeyedList.replaceAll_empty_represents ns).ordered
  add key children child h :=
    hasOrderedChildren_branch.2 ((hasOrderedChildren_branch.1 h).replace child)
  remove key children k h :=
    hasOrderedChildren_branch.2 ((hasOrderedChildren_branch.1 h).sublist List.eraseP_sublist)
  update key children k change hkeeps h := by
    have hordered := hasOrderedChildren_branch.1 h
    exact hasOrderedChildren_branch.2 (hordered.of_keys_eq (hordered.keys_update k hkeeps))

theorem IsKept.everywhere_leaf (hP : IsKept P) (key : String) (scalar : Scalar) :
    (Node.leaf key scalar).Everywhere P :=
  Node.everywhere_leaf.2 (hP.leaf key scalar)

theorem IsKept.everywhere_composite (hP : IsKept P) (key : String) {ns : List Node}
    (h : ∀ n ∈ ns, n.Everywhere P) : (Node.composite key ns).Everywhere P := by
  refine everywhere_branch.2 ⟨hP.composite key ns, fun n hn => ?_⟩
  rcases KeyedList.mem_of_mem_replaceAll hn with hn | hn
  · exact h n hn
  · cases hn

theorem Everywhere.of_get? (h : node.Everywhere P) {k : String}
    (hchild : node.get? k = some child) : child.Everywhere P := by
  cases node with
  | leaf key scalar => cases hchild
  | branch key children =>
    exact (everywhere_branch.1 h).2 child (List.mem_of_find?_eq_some hchild)

theorem descend?_nil (node : Node) : node.descend? [] = some node := rfl

theorem descend?_cons (node : Node) (k : String) (path : List String) :
    node.descend? (k :: path) = (node.get? k).bind (·.descend? path) := rfl

theorem Everywhere.of_descend? {m : Node} {path : List String}
    (h : node.Everywhere P) (hm : node.descend? path = some m) : m.Everywhere P := by
  induction path generalizing node with
  | nil =>
    rw [descend?_nil] at hm
    exact Option.some.inj hm ▸ h
  | cons k path ih =>
    rw [descend?_cons] at hm
    obtain ⟨child, hchild, hm⟩ := Option.bind_eq_some_iff.1 hm
    exact ih (h.of_get? hchild) hm

/-- What holds of leaves and passes to composite nodes holds of all nodes that are read. -/
theorem forall_of_readAll (hleaf : ∀ key written, P (leafOfText key written))
    (hplaceholder : P placeholder)
    (hcomposite : ∀ key ns, (∀ n ∈ ns, P n) → P (composite key ns)) (s : Scanner) {ns : List Node}
    (h : (readAll .recursive s).1 = .ok ns) : ∀ n ∈ ns, P n := by
  -- both the scanner of a section and the one behind a node have less to read
  induction hn : s.remaining using Nat.strong_induction_on generalizing s ns with
  | _ n ih =>
    subst hn
    rw [readAll_eq] at h
    split at h
    · obtain rfl := Except.ok.inj h
      exact fun _ hn => absurd hn List.not_mem_nil
    · split at h
      · cases h
      · next first t hread =>
        obtain ⟨others, hothers, rfl⟩ := map_eq_ok_iff.1 h
        have hrest := ih _ (remaining_readWith_lt hread) t hothers rfl
        refine List.forall_mem_cons.2 ⟨?_, hrest⟩
        cases readWith_sound hread with
        | leaf => exact hleaf _ _
        | placeholder => exact hplaceholder
        | @composite _ _ _ _ u hu ns _ _ _ _ _ _ _ hnodes =>
          exact hcomposite _ ns (ih _ hu u hnodes rfl)

theorem of_read (hleaf : ∀ key written, P (leafOfText key written))
    (hplaceholder : P placeholder)
    (hcomposite : ∀ key ns, (∀ n ∈ ns, P n) → P (composite key ns)) (s : Scanner)
    (h : (read .recursive s).1 = .ok node) : P node := by
  rcases hread : readWith .recursive s fun t _ => (readAll .recursive t).1 with ⟨r, t⟩
  rw [read, hread] at h
  obtain rfl : r = .ok node := h
  cases readWith_sound hread with
  | leaf => exact hleaf _ _
  | placeholder => exact hplaceholder
  | @composite _ _ _ _ u _ ns _ _ _ _ _ _ _ hnodes =>
    exact hcomposite _ ns (forall_of_readAll hleaf hplaceholder hcomposite u hnodes)

/-! ### One change -/

theorem key_apply (change : Change) (node : Node) : (change.apply node).key = node.key := by
  cases change with
  | add child => cases node <;> rfl
  | remove k => cases node <;> rfl
  | setScalar scalar => rfl
  | setText written => rfl

theorem IsKept.everywhere_apply (hP : IsKept P) {change : Change}
    (hchild : ∀ child, change = .add child → child.Everywhere P) (h : node.Everywhere P) :
    (change.apply node).Everywhere P := by
  cases change with
  | add child =>
    cases node with
    | leaf key scalar => exact h
    | branch key children =>
      obtain ⟨hnode, hchildren⟩ := everywhere_branch.1 h
      refine everywhere_branch.2 ⟨hP.add key children child hnode, fun n hn => ?_⟩
      rcases KeyedList.mem_of_mem_replace hn with rfl | hn
      · exact hchild _ rfl
      · exact hchildren n hn
  | remove k =>
    cases node with
    | leaf key scalar => exact h
    | branch key children =>
      obtain ⟨hnode, hchildren⟩ := everywhere_branch.1 h
      exact everywhere_branch.2 ⟨hP.remove key children k hnode,
        fun n hn => hchildren n (List.mem_of_mem_eraseP hn)⟩
  | setScalar scalar => exact hP.everywhere_leaf node.key scalar
  | setText written => exact hP.everywhere_leaf node.key (.infer written)

/-! ### A change at the end of a path -/

section Paths

variable {change : Node → Node}

theorem updateAt_nil (change : Node → Node) (node : Node) : updateAt change [] node = change node :=
  rfl

theorem updateAt_leaf (change : Node → Node) (k : String) (path : List String) (key : String)
    (scalar : Scalar) : updateAt change (k :: path) (leaf key scalar) = leaf key scalar :=
  rfl

theorem updateAt_branch (change : Node → Node) (k : String) (path : List String) (key : String)
    (children : KeyedList Node) :
    updateAt change (k :: path) (branch key children) =
      branch key (children.update k (updateAt change path)) :=
  rfl

theorem descend?_append (node : Node) (path rest : List String) :
    node.descend? (path ++ rest) = (node.descend? path).bind (·.descend? rest) := by
  induction path generalizing node with
  | nil => rw [List.nil_append, descend?_nil, Option.bind_some]
  | cons k path ih =>
    rw [List.cons_append, descend?_cons, descend?_cons, Option.bind_assoc]
    exact congrArg _ (funext ih)

theorem updateAt_append (change : Node → Node) (path rest : List String) (node : Node) :
    updateAt change (path ++ rest) node = updateAt (updateAt change rest) path node := by
  induction path generalizing node with
  | nil => rw [List.nil_append, updateAt_nil]
  | cons k path ih =>
    cases node with
    | leaf key scalar => rw [List.cons_append, updateAt_leaf, updateAt_leaf]
    | branch key children =>
      rw [List.cons_append, updateAt_branch, updateAt_branch, funext fun n => ih n]

/-- To change what is already as the change would have it leaves the tree as it is; so does a change
where the path does not lead. -/
theorem updateAt_eq_self (path : List String) (h : ∀ m ∈ node.descend? path, change m = m) :
    updateAt change path node = node := by
  induction path generalizing node with
  | nil =>
    rw [updateAt_nil]
    exact h node rfl
  | cons k path ih =>
    cases node with
    | leaf key scalar => exact updateAt_leaf change k path key scalar
    | branch key children =>
      rw [updateAt_branch, KeyedList.update_eq_self]
      intro child hchild
      refine ih fun m hm => h m ?_
      rw [descend?_cons]
      exact Option.bind_eq_some_iff.2 ⟨child, hchild, hm⟩

variable (hkeeps : ∀ n, (change n).key = n.key)

include hkeeps

theorem key_updateAt (path : List String) (node : Node) :
    (updateAt change path node).key = node.key := by
  cases path with
  | nil => rw [updateAt_nil, hkeeps]
  | cons k path =>
    cases node with
    | leaf key scalar => rw [updateAt_leaf]
    | branch key children =>
      rw [updateAt_branch]
      rfl

/-- A change that keeps keys keeps what is kept, at every depth. -/
theorem IsKept.everywhere_updateAt (hP : IsKept P)
    (hchange : ∀ n, n.Everywhere P → (change n).Everywhere P) (path : List String)
    (h : node.Everywhere P) : (updateAt change path node).Everywhere P := by
  induction path generalizing node with
  | nil =>
    rw [updateAt_nil]
    exact hchange node h
  | cons k path ih =>
    cases node with
    | leaf key scalar => rwa [updateAt_leaf]
    | branch key children =>
      obtain ⟨hnode, hchildren⟩ := everywhere_branch.1 h
      rw [updateAt_branch]
      refine everywhere_branch.2
        ⟨hP.update key children k _ (key_updateAt hkeeps path) hnode, fun n hn => ?_⟩
      rcases KeyedList.mem_of_mem_update hn with hn | ⟨m, hm, rfl⟩
      · exact hchildren n hn
      · exact ih (hchildren m hm)

/-- One step of a path into a tree that was changed behind that step. -/
theorem get?_updateAt (k : String) (path : List String) (hordered : node.HasOrderedChildren) :
    (updateAt change (k :: path) node).get? =
      Function.update node.get? k ((node.get? k).map (updateAt change path)) := by
  cases node with
  | leaf key scalar =>
    rw [updateAt_leaf]
    exact (Function.update_eq_self k _).symm
  | branch key children =>
    have hmap := (KeyedList.Represents.self (hordered children rfl)).update k
      (key_updateAt hkeeps path)
    rw [updateAt_branch]
    exact funext hmap.find?_eq

/-- At the end of the path stands what the change makes of the node there. -/
theorem descend?_updateAt (path : List String) (h : node.Everywhere HasOrderedChildren) :
    (updateAt change path node).descend? path = (node.descend? path).map change := by
  induction path generalizing node with
  | nil => rw [updateAt_nil, descend?_nil, descend?_nil, Option.map_some]
  | cons k path ih =>
    rw [descend?_cons, descend?_cons, get?_updateAt hkeeps k path h.self, Function.update_self]
    cases hchild : node.get? k with
    | none => rfl
    | some child => exact ih (h.of_get? hchild)

/-- Where another path parts from the path of the change, everything is as it was. -/
theorem descend?_updateAt_of_diverge {path other : List String}
    (h : node.Everywhere HasOrderedChildren) (hpath : ¬path <+: other) (hother : ¬other <+: path) :
    (updateAt change path node).descend? other = node.descend? other := by
  induction path generalizing node other with
  | nil => exact absurd List.nil_prefix hpath
  | cons k path ih =>
    cases other with
    | nil => exact absurd List.nil_prefix hother
    | cons l other =>
      rw [descend?_cons, descend?_cons, get?_updateAt hkeeps k path h.self]
      by_cases hl : l = k
      · subst hl
        rw [Function.update_self]
        cases hchild : node.get? l with
        | none => rfl
        | some child =>
          refine ih (h.of_get? hchild) ?_ ?_
          · exact fun hprefix => hpath (List.cons_prefix_cons.2 ⟨rfl, hprefix⟩)
          · exact fun hprefix => hother (List.cons_prefix_cons.2 ⟨rfl, hprefix⟩)
      · rw [Function.update_of_ne hl]

end Paths

/-! ### Composite nodes as finite maps -/

/-- The keys of the children, in order. -/
def keys (node : Node) : List String := (node.children?.map KeyedList.keys).getD []

/-- The children of a node are a finite map: every look-up gives what the map gives. -/
structure IsMap (node : Node) (m : String → Option Node) : Prop where
  get?_eq : ∀ k, node.get? k = m k
  /-- A search by halving finds the same child. -/
  search?_eq : ∀ k, node.children?.bind (·.search? k) = m k
  contains_eq : ∀ k, node.contains k = (m k).isSome
  keys_pairwise : node.keys.Pairwise fun k l => compare k l = .lt
  mem_keys_iff : ∀ k, k ∈ node.keys ↔ (m k).isSome = true
  /-- The child at a place is the one of the key there. -/
  childAt?_eq : ∀ i, node.childAt? i = node.keys[i]?.bind m
  size_eq : node.size = node.keys.length

theorem isMap_leaf (key : String) (scalar : Scalar) : (leaf key scalar).IsMap fun _ => none where
  get?_eq _ := rfl
  search?_eq _ := rfl
  contains_eq _ := rfl
  keys_pairwise := .nil
  mem_keys_iff k := by simp [keys, children?]
  childAt?_eq i := by simp [keys, children?, childAt?]
  size_eq := rfl

theorem isMap_branch {m : String → Option Node} (key : String) (h : children.Represents m) :
    (branch key children).IsMap m where
  get?_eq := h.find?_eq
  search?_eq := h.search?_eq
  contains_eq k := by
    rw [contains, ← h.find?_eq k]
    rfl
  keys_pairwise := h.keys_pairwise
  mem_keys_iff _ := h.mem_keys_iff
  childAt?_eq := h.get?_eq
  size_eq := (List.length_map _).symm

theorem isMap_get? (h : node.HasOrderedChildren) : node.IsMap node.get? := by
  cases node with
  | leaf key scalar => exact isMap_leaf key scalar
  | branch key children => exact isMap_branch key (.self (h children rfl))

/-- Of several children with one key a composite node has the last one. -/
theorem isMap_composite (key : String) (ns : List Node) :
    (composite key ns).IsMap fun k => ns.reverse.find? (KeyedList.hasKey k) :=
  isMap_branch key (KeyedList.replaceAll_empty_represents ns)

theorem composite_congr (key : String) {ms ns : List Node}
    (h : ∀ k : String, ms.reverse.find? (KeyedList.hasKey k) = ns.reverse.find? (KeyedList.hasKey k)) :
    composite key ms = composite key ns :=
  congrArg (branch key) (KeyedList.replaceAll_congr h)

/-- What changes do at the end of a path, where `m` stands: they act on a finite map, and nothing else
is changed. -/
structure ActsAsMap (root : Node) (path : List String) (m : Node) : Prop where
  isMap : m.IsMap m.get?
  /-- To add a child is to put it in place of the one with its key. -/
  add : m.isComposite = true → ∀ child, ∃ changed, m.add child = .ok changed ∧
    changed.key = m.key ∧ changed.isComposite = true ∧
    changed.IsMap (Function.update m.get? child.key (some child))
  /-- A leaf refuses a child, and the tree stays as it is. -/
  add_leaf : ∀ scalar, m.scalar? = some scalar → ∀ child,
    m.add child = .error (mismatch m.key scalar .composite) ∧ root.changeAt path (.add child) = root
  /-- To remove a key gives the child that the map had for it. -/
  remove : ∀ k, (m.remove k).1 = m.get? k ∧ (m.remove k).2.key = m.key ∧
    (m.remove k).2.isComposite = m.isComposite ∧
    (m.remove k).2.IsMap (Function.update m.get? k none)
  remove_absent : ∀ k, m.get? k = none → m.remove k = (none, m)
  setScalar : ∀ scalar, m.setScalar scalar = leaf m.key scalar
  setText : ∀ written, m.setText written = leaf m.key (.infer written)
  /-- The node at the end of the path is what the change makes of it. -/
  target : ∀ change, (root.changeAt path change).descend? path = some (change.apply m)
  /-- Where another path parts from this one, the nodes are as they were. -/
  elsewhere : ∀ change other, ¬path <+: other → ¬other <+: path →
    (root.changeAt path change).descend? other = root.descend? other
  /-- The nodes on the way are composite nodes with the keys and the room that they had. -/
  above : ∀ change front k rest, path = front ++ k :: rest →
    ∃ key before after, root.descend? front = some (branch key before) ∧
      (root.changeAt path change).descend? front = some (branch key after) ∧
      after.keys = before.keys ∧ after.capacity = before.capacity

theorem actsAsMap_of_everywhere {root m : Node} {path : List String}
    (h : root.Everywhere HasOrderedChildren) (hm : root.descend? path = some m) :
    ActsAsMap root path m where
  isMap := isMap_get? (h.of_descend? hm).self
  add hcomposite child := by
    cases m with
    | leaf key scalar => cases hcomposite
    | branch key children =>
      have hmap := KeyedList.Represents.self ((h.of_descend? hm).self children rfl)
      exact ⟨_, rfl, rfl, rfl, isMap_branch key (hmap.replace child)⟩
  add_leaf scalar hscalar child := by
    cases m with
    | branch key children => cases hscalar
    | leaf key scalar =>
      obtain rfl := Option.some.inj hscalar
      refine ⟨rfl, updateAt_eq_self path fun n hn => ?_⟩
      obtain rfl := Option.some.inj (hm.symm.trans hn)
      rfl
  remove k := by
    cases m with
    | leaf key scalar =>
      have hnone : Function.update (leaf key scalar).get? k none = (leaf key scalar).get? :=
        Function.update_eq_self k _
      refine ⟨rfl, rfl, rfl, ?_⟩
      rw [hnone]
      exact isMap_leaf key scalar
    | branch key children =>
      have hmap := KeyedList.Represents.self ((h.of_descend? hm).self children rfl)
      exact ⟨rfl, rfl, rfl, isMap_branch key (hmap.erase k)⟩
  remove_absent k hk := by
    cases m with
    | leaf key scalar => rfl
    | branch key children =>
      have herase : children.erase k = children := by
        rw [KeyedList.erase, List.eraseP_of_forall_not (List.find?_eq_none.1 hk)]
      rw [Node.remove, KeyedList.remove, herase]
      exact congrArg (·, branch key children) hk
  setScalar _ := rfl
  setText _ := rfl
  target change := by
    rw [changeAt, descend?_updateAt (key_apply change) path h, hm, Option.map_some]
  elsewhere change other := descend?_updateAt_of_diverge (key_apply change) h
  above change front k rest hpath := by
    subst hpath
    rw [descend?_append, Option.bind_eq_some_iff] at hm
    obtain ⟨before, hbefore, hrest⟩ := hm
    have hordered := (h.of_descend? hbefore).self
    cases before with
    | leaf key scalar =>
      rw [descend?_cons] at hrest
      cases hrest
    | branch key children =>
      refine ⟨key, children, children.update k (updateAt change.apply rest), hbefore, ?_,
        (hordered children rfl).keys_update k (key_updateAt (key_apply change) rest), rfl⟩
      rw [changeAt, updateAt_append,
        descend?_updateAt (key_updateAt (key_apply change) (k :: rest)) front h, hbefore,
        Option.map_some, updateAt_branch]

/-- What is kept holds at every depth, whatever is done to a tree. -/
theorem Obtained.everywhere (h : Obtained node) (hP : IsKept P) : node.Everywhere P := by
  induction h with
  | leaf key scalar => exact hP.everywhere_leaf key scalar
  | leafOfText key written => exact hP.everywhere_leaf key (.infer written)
  | placeholder => exact hP.everywhere_leaf _ _
  | composite key _ ih => exact hP.everywhere_composite key ih
  | parse h =>
    exact of_read (fun _ _ => hP.everywhere_leaf _ _) (hP.everywhere_leaf _ _)
      (fun key _ => hP.everywhere_composite key) _ h
  | parseAll h hnode =>
    exact forall_of_readAll (fun _ _ => hP.everywhere_leaf _ _) (hP.everywhere_leaf _ _)
      (fun key _ => hP.everywhere_composite key) _ h _ hnode
  | changed h path hchild ih ihchild =>
    exact hP.everywhere_updateAt (key_apply _) (fun n => hP.everywhere_apply ihchild) path ih

/-- Whatever is done to a tree, it is in order at every depth. -/
theorem Obtained.everywhere_ordered (h : Obtained node) : node.Everywhere HasOrderedChildren :=
  h.everywhere isKept_hasOrderedChildren

/-- **Composite nodes are finite maps**, at every depth and after any changes; and a composite node is
given by the last child with each key. -/
theorem actsAsMap_of_obtained (h : Obtained node) :
    (node.Everywhere HasOrderedChildren ∧
      ∀ path, (∀ m, node.descend? path = some m → ActsAsMap node path m) ∧
        (node.descend? path = none → ∀ change, node.changeAt path change = node)) ∧
      (∀ key ns, (composite key ns).IsMap fun k => ns.reverse.find? (KeyedList.hasKey k)) ∧
      ∀ key (ms ns : List Node),
        (∀ k : String,
          ms.reverse.find? (KeyedList.hasKey k) = ns.reverse.find? (KeyedList.hasKey k)) →
        composite key ms = composite key ns := by
  refine ⟨⟨h.everywhere_ordered, fun path => ⟨fun m hm => actsAsMap_of_everywhere h.everywhere_ordered hm,
    fun hnone change => ?_⟩⟩, isMap_composite, fun key _ _ => composite_congr key⟩
  refine updateAt_eq_self path fun m hm => ?_
  rw [hnone] at hm
  cases hm

theorem actsAsMap_of_obtained_sample :
    Obtained (composite "r" [leaf "c" .empty, composite "b" [leaf "x" .empty], leaf "c" .empty]) ∧
      ActsAsMap (composite "r" [leaf "c" .empty, composite "b" [leaf "x" .empty], leaf "c" .empty])
        ["b"] (composite "b" [leaf "x" .empty]) := by
  have hobtained : Obtained
      (composite "r" [leaf "c" .empty, composite "b" [leaf "x" .empty], leaf "c" .empty]) := by
    refine .composite "r" fun n hn => ?_
    simp only [List.mem_cons, List.not_mem_nil, or_false] at hn
    rcases hn with rfl | rfl | rfl
    · exact .leaf "c" .empty
    · refine .composite "b" fun n hn => ?_
      obtain rfl := List.mem_singleton.1 hn
      exact .leaf "x" .empty
    · exact .leaf "c" .empty
  exact ⟨hobtained, ((actsAsMap_of_obtained hobtained).1.2 ["b"]).1 _ rfl⟩

end TreeScript.Node
