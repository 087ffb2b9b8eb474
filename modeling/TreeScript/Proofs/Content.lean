import TreeScript.Node.Printer
import TreeScript.Proofs.KeyedList

/-!
# What a tree holds

Trees are compared by their keys, their scalars and the order of their children; the room that a list
of children has reserved is no part of what a tree holds.

- `Node.inductionOn`: induction over a node and the children below it.
- `Node.Everywhere`: a property of a node and of all nodes below it.
- `Node.contentWith`, `Node.content`: a tree without its room, its scalars mapped.
- `Node.linesOfAll_eq`: the lines of several nodes, as a list.
-/

namespace TreeScript

namespace Node

mutual

/-- Induction over trees: a property that passes from the children of a node to the node holds of
all nodes. -/
theorem inductionOn {P : Node → Prop} (leaf : ∀ key scalar, P (.leaf key scalar))
    (branch : ∀ key children room, (∀ n ∈ children, P n) → P (.branch key ⟨children, room⟩)) :
    ∀ n, P n
  | .leaf key scalar => leaf key scalar
  | .branch key ⟨children, room⟩ => branch key children room (inductionOnAll leaf branch children)

theorem inductionOnAll {P : Node → Prop} (leaf : ∀ key scalar, P (.leaf key scalar))
    (branch : ∀ key children room, (∀ n ∈ children, P n) → P (.branch key ⟨children, room⟩)) :
    ∀ ns : List Node, ∀ n ∈ ns, P n
  | [], _, h => absurd h List.not_mem_nil
  | n :: ns, m, h => (List.mem_cons.1 h).elim (fun heq => heq ▸ inductionOn leaf branch n)
      (inductionOnAll leaf branch ns m)

end

/-! ### Properties of all nodes -/

mutual

/-- Whether a property holds of a node and of all nodes below it. -/
def Everywhere (P : Node → Prop) : Node → Prop
  | leaf key scalar => P (leaf key scalar)
  | branch key ⟨children, room⟩ => P (branch key ⟨children, room⟩) ∧ EverywhereAll P children

/-- Whether a property holds of several nodes and of all nodes below them. -/
def EverywhereAll (P : Node → Prop) : List Node → Prop
  | [] => True
  | n :: ns => n.Everywhere P ∧ EverywhereAll P ns

end

variable {P Q : Node → Prop} {key : String} {scalar : Scalar} {children : KeyedList Node}

theorem everywhereAll_iff {ns : List Node} : EverywhereAll P ns ↔ ∀ n ∈ ns, n.Everywhere P := by
  induction ns with
  | nil => simp [EverywhereAll]
  | cons n ns ih => simp [EverywhereAll, ih]

@[simp] theorem everywhere_leaf : (leaf key scalar).Everywhere P ↔ P (leaf key scalar) := by
  rw [Everywhere]

@[simp] theorem everywhere_branch :
    (branch key children).Everywhere P ↔
      P (branch key children) ∧ ∀ n ∈ children.items, n.Everywhere P := by
  rw [Everywhere, everywhereAll_iff]

theorem Everywhere.self {n : Node} (h : n.Everywhere P) : P n := by
  cases n with
  | leaf key scalar => exact everywhere_leaf.1 h
  | branch key children => exact (everywhere_branch.1 h).1

theorem Everywhere.imp {n : Node} (h : ∀ m, P m → Q m) (hn : n.Everywhere P) : n.Everywhere Q := by
  induction n using inductionOn with
  | leaf key scalar => exact everywhere_leaf.2 (h _ (everywhere_leaf.1 hn))
  | branch key children room ih =>
    obtain ⟨hnode, hchildren⟩ := everywhere_branch.1 hn
    exact everywhere_branch.2 ⟨h _ hnode, fun m hm => ih m hm (hchildren m hm)⟩

/-! ### Content -/

mutual

/-- A tree without the room that its lists have reserved, with its scalars mapped. -/
def contentWith (f : Scalar → Scalar) : Node → Node
  | leaf key scalar => leaf key (f scalar)
  | branch key ⟨children, _⟩ => branch key ⟨contentsWith f children, 0⟩

/-- Several trees without their room, with their scalars mapped. -/
def contentsWith (f : Scalar → Scalar) : List Node → List Node
  | [] => []
  | n :: ns => n.contentWith f :: contentsWith f ns

end

/-- A tree without the room that its lists have reserved. -/
def content (n : Node) : Node := n.contentWith id

theorem contentsWith_eq (f : Scalar → Scalar) (ns : List Node) :
    contentsWith f ns = ns.map (contentWith f) := by
  induction ns with
  | nil => rfl
  | cons n ns ih => rw [contentsWith, ih, List.map_cons]

theorem contentWith_leaf (f : Scalar → Scalar) (key : String) (scalar : Scalar) :
    (leaf key scalar).contentWith f = leaf key (f scalar) := by
  rw [contentWith]

theorem contentWith_branch (f : Scalar → Scalar) (key : String) (children : KeyedList Node) :
    (branch key children).contentWith f =
      branch key ⟨children.items.map (contentWith f), 0⟩ := by
  rw [contentWith, contentsWith_eq]

@[simp] theorem key_contentWith (f : Scalar → Scalar) (n : Node) : (n.contentWith f).key = n.key := by
  cases n with
  | leaf key scalar => rw [contentWith_leaf]; rfl
  | branch key children => rw [contentWith_branch]; rfl

/-- A composite node holds its children, if they come in the strict order of their keys. -/
theorem contentWith_composite (f : Scalar → Scalar) (key : String) {ns : List Node}
    (h : KeyedList.StrictlyOrdered ns) :
    (composite key ns).contentWith f = branch key ⟨ns.map (contentWith f), 0⟩ := by
  have hitems : (KeyedList.empty.replaceAll ns).items = ns :=
    KeyedList.items_replaceAll h
  rw [composite, ← KeyedList.replaceAll, contentWith_branch, hitems]

/-- The order of nodes is the order of what they hold. -/
theorem strictlyOrdered_of_map_content {f g : Scalar → Scalar} {ms ns : List Node}
    (h : ms.map (contentWith f) = ns.map (contentWith g)) (hns : KeyedList.StrictlyOrdered ns) :
    KeyedList.StrictlyOrdered ms := by
  have hkeys : ms.map key = ns.map key := by
    have := congrArg (List.map key) h
    simpa [Function.comp_def] using this
  rw [KeyedList.strictlyOrdered_iff_keys] at hns ⊢
  show (ms.map key).Pairwise fun k l => compare k l = .lt
  rw [hkeys]
  exact hns

/-! ### Lines -/

theorem linesOfAll_eq (ns : List Node) : linesOfAll ns = ns.flatMap lines := by
  induction ns with
  | nil => rfl
  | cons n ns ih => rw [linesOfAll, ih, List.flatMap_cons]

theorem lines_ne_nil (n : Node) : n.lines ≠ [] := by
  cases n with
  | leaf key scalar => simp [lines]
  | branch key children => simp [lines]

end Node

end TreeScript
