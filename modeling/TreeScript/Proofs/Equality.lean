import Mathlib.Data.List.Forall2
import TreeScript.Node.Equality
import TreeScript.Proofs.Capacity

/-!
# What equality looks at

Two keyed lists are equal when their items are and when they have the same room, and so it is with the
children of two nodes.  The room keeps the largest size that a list has had, so equality sees more than what a
list holds: two lists with the same items differ when one of them was once larger, by enough to need another
room.  Of nodes that were read, or made of their children, only what they hold counts.

- `History.ComparesRoom`: lists that were made alike.
- `Node.rooms`, `Node.same_iff`: what equality of nodes takes in beside their content.
- `Node.rooms_eq_of_content`: nodes with the least room.
- `Node.HasPlace`, `Node.largest`, `Node.isLeastDoubling_applyAll`: the children of a node that is changed.
- `Node.AddsAndRemoves`, `comparesRoom`: children that come and go again.
-/

namespace TreeScript.KeyedList

variable {α κ : Type}

theorem beq_iff [BEq α] {list other : KeyedList α} :
    (list == other) = true ↔ (list.items == other.items) = true ∧ list.capacity = other.capacity := by
  cases list
  cases other
  show (_ && _) = true ↔ _
  rw [Bool.and_eq_true]
  exact and_congr_right' beq_iff_eq

variable [Keyed α κ] [Ord κ]

namespace History

/-- What the equality of two lists comes to that were made with one capacity. -/
structure ComparesRoom [BEq α] (capacity : Nat) (es fs : List (Edit α)) : Prop where
  /-- The items are equal, and no doubling of the first room is between their largest sizes. -/
  beq_iff : ((run capacity es).list == (run capacity fs).list) = true ↔
    ((run capacity es).list.items == (run capacity fs).list.items) = true ∧
      ∀ k, peak capacity es ≤ powerOfTwoFrom capacity * 2 ^ k ↔
        peak capacity fs ≤ powerOfTwoFrom capacity * 2 ^ k
  /-- As long as neither list outgrows its first room, only the items count. -/
  beq_eq : peak capacity es ≤ powerOfTwoFrom capacity → peak capacity fs ≤ powerOfTwoFrom capacity →
    ((run capacity es).list == (run capacity fs).list) =
      ((run capacity es).list.items == (run capacity fs).list.items)

theorem comparesRoom_run [BEq α] (capacity : Nat) (es fs : List (Edit α)) :
    ComparesRoom capacity es fs := by
  have hbeq : ((run capacity es).list == (run capacity fs).list) = true ↔
      ((run capacity es).list.items == (run capacity fs).list.items) = true ∧
        ∀ k, peak capacity es ≤ powerOfTwoFrom capacity * 2 ^ k ↔
          peak capacity fs ≤ powerOfTwoFrom capacity * 2 ^ k := by
    rw [KeyedList.beq_iff,
      (isLeastDoubling_run capacity es).eq_iff (isLeastDoubling_run capacity fs)]
  refine ⟨hbeq, fun hes hfs => Bool.eq_iff_iff.2 ?_⟩
  rw [hbeq, and_iff_left_iff_imp]
  intro _ k
  have hpow : powerOfTwoFrom capacity ≤ powerOfTwoFrom capacity * 2 ^ k :=
    Nat.le_mul_of_pos_right _ (Nat.two_pow_pos k)
  exact iff_of_true (Nat.le_trans hes hpow) (Nat.le_trans hfs hpow)

end History

end TreeScript.KeyedList

namespace TreeScript.Node

open KeyedList

variable {key : String} {m n node : Node} {ms ns : List Node}

/-! ### Equal nodes -/

theorem sameAll_iff : sameAll ms ns = true ↔ List.Forall₂ (fun m n => m.same n = true) ms ns := by
  induction ms generalizing ns with
  | nil => cases ns <;> simp [sameAll]
  | cons m ms ih => cases ns <;> simp [sameAll, ih]

theorem same_branch_iff {k l : String} {xs ys : KeyedList Node} :
    (branch k xs).same (branch l ys) = true ↔
      k = l ∧ xs.capacity = ys.capacity ∧
        List.Forall₂ (fun m n => m.same n = true) xs.items ys.items := by
  rw [← sameAll_iff]
  simp [same, and_assoc]

/-- A relation between the items of two lists may be weakened for the items alone. -/
theorem forall₂_imp_of_mem {α : Type} {R S : α → α → Prop} {xs ys : List α}
    (h : ∀ x ∈ xs, ∀ y, R x y → S x y) (hR : List.Forall₂ R xs ys) : List.Forall₂ S xs ys := by
  induction hR with
  | nil => exact .nil
  | cons hxy _ ih =>
    exact .cons (h _ (by simp) _ hxy) (ih fun x hx => h x (List.mem_cons_of_mem _ hx))

/-- Two nodes that hold the same, whatever their rooms: leaves with equal scalars, and composite nodes
whose children hold the same. -/
theorem inductionOn_content {P : Node → Node → Prop}
    (leaf : ∀ key s t, s.same t = true → P (leaf key s) (leaf key t))
    (branch : ∀ key xs ys, List.Forall₂ (fun m n => m.content.same n.content = true ∧ P m n)
      xs.items ys.items → P (branch key xs) (branch key ys)) :
    ∀ m n, m.content.same n.content = true → P m n := by
  intro m
  induction m using inductionOn with
  | leaf key s =>
    rintro (⟨l, t⟩ | ⟨l, ys⟩) h
    · rw [content, content, contentWith_leaf, contentWith_leaf, same, Bool.and_eq_true, beq_iff_eq] at h
      obtain ⟨rfl, h⟩ := h
      exact leaf key s t h
    · cases ys
      cases h
  | branch key xs room ih =>
    rintro (⟨l, t⟩ | ⟨l, ys⟩) h
    · cases h
    · rw [content, content, contentWith_branch, contentWith_branch, same_branch_iff] at h
      obtain ⟨rfl, -, h⟩ := h
      rw [List.forall₂_map_left_iff, List.forall₂_map_right_iff] at h
      exact branch key ⟨xs, room⟩ ys (forall₂_imp_of_mem (fun m hm n hmn => ⟨hmn, ih m hm n hmn⟩) h)

/-- Equal nodes hold the same. -/
theorem same_content (h : m.same n = true) : m.content.same n.content = true := by
  induction m using inductionOn generalizing n with
  | leaf key s =>
    cases n with
    | leaf l t => rwa [content, content, contentWith_leaf, contentWith_leaf]
    | branch l ys => cases h
  | branch key xs room ih =>
    cases n with
    | leaf l t => cases h
    | branch l ys =>
      obtain ⟨rfl, -, h⟩ := same_branch_iff.1 h
      rw [content, content, contentWith_branch, contentWith_branch, same_branch_iff]
      refine ⟨rfl, rfl, ?_⟩
      rw [List.forall₂_map_left_iff, List.forall₂_map_right_iff]
      exact forall₂_imp_of_mem (fun m hm n hmn => ih m hm hmn) h

/-! ### Rooms -/

mutual

/-- The rooms of a node and of all nodes below it, in the order in which the nodes stand. -/
def rooms : Node → List Nat
  | leaf _ _ => []
  | branch _ ⟨children, room⟩ => room :: roomsOfAll children

/-- The rooms of several nodes and of all nodes below them. -/
def roomsOfAll : List Node → List Nat
  | [] => []
  | n :: ns => n.rooms ++ roomsOfAll ns

end

theorem rooms_branch (key : String) (children : KeyedList Node) :
    (branch key children).rooms = children.capacity :: roomsOfAll children.items := by
  rw [rooms]

theorem roomsOfAll_eq_iff
    (h : List.Forall₂ (fun m n => m.rooms.length = n.rooms.length ∧
      (m.same n = true ↔ m.rooms = n.rooms)) ms ns) :
    (roomsOfAll ms).length = (roomsOfAll ns).length ∧
      (List.Forall₂ (fun m n => m.same n = true) ms ns ↔ roomsOfAll ms = roomsOfAll ns) := by
  induction h with
  | nil => exact ⟨rfl, iff_of_true .nil rfl⟩
  | cons hfirst _ ih =>
    obtain ⟨hlength, hsame⟩ := hfirst
    rw [roomsOfAll, roomsOfAll, List.length_append, List.length_append, hlength, ih.1,
      List.forall₂_cons, hsame, ih.2, List.append_eq_append_iff_of_size_eq_left hlength]
    exact ⟨rfl, Iff.rfl⟩

/-- **Equality of nodes** takes in their content and their rooms, and nothing else. -/
theorem same_iff (m n : Node) :
    m.same n = true ↔ m.content.same n.content = true ∧ m.rooms = n.rooms := by
  have hrooms : m.content.same n.content = true →
      m.rooms.length = n.rooms.length ∧ (m.same n = true ↔ m.rooms = n.rooms) := by
    refine inductionOn_content (P := fun m n => m.rooms.length = n.rooms.length ∧
      (m.same n = true ↔ m.rooms = n.rooms)) ?_ ?_ m n
    · intro key s t hst
      exact ⟨rfl, iff_of_true (by simp [same, hst]) rfl⟩
    · intro key xs ys h
      obtain ⟨hlength, hsame⟩ := roomsOfAll_eq_iff (h.imp fun _ _ => And.right)
      rw [rooms_branch, rooms_branch, same_branch_iff, hsame, List.cons.injEq]
      exact ⟨congrArg (· + 1) hlength, by simp⟩
  constructor
  · intro h
    have hcontent := same_content h
    exact ⟨hcontent, (hrooms hcontent).2.1 h⟩
  · rintro ⟨hcontent, h⟩
    exact (hrooms hcontent).2.2 h

theorem roomsOfAll_congr {P : Node → Prop} (hms : ∀ m ∈ ms, P m) (hns : ∀ n ∈ ns, P n)
    (h : List.Forall₂ (fun m n => P m → P n → m.rooms = n.rooms) ms ns) :
    roomsOfAll ms = roomsOfAll ns := by
  induction h with
  | nil => rfl
  | cons hfirst _ ih =>
    obtain ⟨hm, hms⟩ := List.forall_mem_cons.1 hms
    obtain ⟨hn, hns⟩ := List.forall_mem_cons.1 hns
    rw [roomsOfAll, roomsOfAll, hfirst hm hn, ih hms hns]

/-- Among nodes with the least room only the content counts. -/
theorem same_eq_of_hasLeastRoom (hm : m.Everywhere HasLeastRoom) (hn : n.Everywhere HasLeastRoom) :
    m.same n = m.content.same n.content := by
  have hrooms : m.content.same n.content = true → m.Everywhere HasLeastRoom →
      n.Everywhere HasLeastRoom → m.rooms = n.rooms := by
    refine inductionOn_content (P := fun m n => m.Everywhere HasLeastRoom →
      n.Everywhere HasLeastRoom → m.rooms = n.rooms) (fun _ _ _ _ _ _ => rfl) ?_ m n
    intro key xs ys h hm hn
    obtain ⟨hxs, hms⟩ := everywhere_branch.1 hm
    obtain ⟨hys, hns⟩ := everywhere_branch.1 hn
    have hroom : xs.capacity = ys.capacity := by
      refine ((hxs xs rfl).eq_iff (hys ys rfl)).2 fun k => ?_
      rw [KeyedList.size, KeyedList.size, h.length_eq]
    have hbelow : roomsOfAll xs.items = roomsOfAll ys.items :=
      roomsOfAll_congr hms hns (h.imp fun _ _ => And.right)
    rw [rooms_branch, rooms_branch, hroom, hbelow]
  rw [Bool.eq_iff_iff, same_iff, and_iff_left_iff_imp]
  exact fun hcontent => hrooms hcontent hm hn

/-! ### Children that come and go -/

/-- The room for the children of a node; a leaf has none. -/
def room (node : Node) : Nat := (node.children?.map KeyedList.capacity).getD 0

/-- The node after several changes. -/
def applyAll (changes : List Change) (node : Node) : Node :=
  changes.foldl (fun n change => change.apply n) node

/-- The largest number of children that a node has while it is changed. -/
def largest (node : Node) : List Change → Nat
  | [] => node.size
  | change :: changes => max node.size ((change.apply node).largest changes)

/-- There is room, and the children find place in it. -/
def HasPlace (node : Node) : Prop :=
  ∀ children ∈ node.children?, 0 < children.capacity ∧ children.size ≤ children.capacity

theorem isKept_hasPlace : IsKept HasPlace where
  leaf key scalar := by rintro _ ⟨⟩
  composite key ns := by
    rintro _ ⟨⟩
    have hfits := fits_empty.replaceAll ns
    rw [Fits] at hfits
    have := le_roomFor (KeyedList.empty.replaceAll ns).size
    rw [← hfits] at this
    exact this.symm
  add key children child h := by
    rintro _ ⟨⟩
    obtain ⟨hpos, hsize⟩ := h children rfl
    have herase := size_erase_le children child.key
    have hinsert := size_insert (children.erase child.key) child
    show 0 < (if (children.erase child.key).size < children.capacity then children.capacity
      else 2 * children.capacity) ∧ ((children.erase child.key).insert child).size ≤
      (if (children.erase child.key).size < children.capacity then children.capacity
      else 2 * children.capacity)
    split <;> omega
  remove key children k h := by
    rintro _ ⟨⟩
    obtain ⟨hpos, hsize⟩ := h children rfl
    exact ⟨hpos, Nat.le_trans (size_erase_le children k) hsize⟩
  update key children k change hkeeps h := by
    rintro _ ⟨⟩
    obtain ⟨hpos, hsize⟩ := h children rfl
    rw [← updateNth_zero]
    exact ⟨hpos, (length_modifyNth (hasKey k) hkeeps 0 children.items).trans_le hsize⟩

theorem size_le_largest (node : Node) (changes : List Change) : node.size ≤ node.largest changes := by
  cases changes with
  | nil => exact Nat.le_refl _
  | cons change changes => exact Nat.le_max_left _ _

theorem key_applyAll (changes : List Change) (node : Node) :
    (applyAll changes node).key = node.key := by
  induction changes generalizing node with
  | nil => rfl
  | cons change changes ih => exact (ih (change.apply node)).trans (key_apply change node)

/-- A leaf stays a leaf, whatever comes. -/
theorem isLeaf_applyAll (changes : List Change) (h : node.isLeaf = true) :
    (applyAll changes node).isLeaf = true := by
  induction changes generalizing node with
  | nil => exact h
  | cons change changes ih =>
    refine ih ?_
    cases node with
    | branch key children => cases h
    | leaf key scalar => cases change <;> rfl

/-- The room of a composite node follows the largest number of its children. -/
theorem isLeastDoubling_applyAll {p n : Nat} (hp : 0 < p) (changes : List Change)
    (hroom : IsLeastDoubling p n node.room) (hsize : node.size ≤ n)
    (hcomposite : (applyAll changes node).isLeaf = false) :
    IsLeastDoubling p (max n (node.largest changes)) (applyAll changes node).room := by
  induction changes generalizing node n with
  | nil => exact hroom.keep hsize
  | cons change changes ih =>
    have hbranch : (change.apply node).isLeaf = false :=
      Bool.eq_false_iff.2 fun hleaf => Bool.eq_false_iff.1 hcomposite (isLeaf_applyAll changes hleaf)
    have hnext : IsLeastDoubling p (max n (change.apply node).size) (change.apply node).room := by
      cases node with
      | leaf key scalar => cases change <;> cases hbranch
      | branch key children =>
        cases change with
        | add child =>
          have herase : (children.erase child.key).size ≤ n :=
            Nat.le_trans (size_erase_le children child.key) hsize
          have hroom : IsLeastDoubling p n (children.erase child.key).capacity := hroom
          exact hroom.insert hp herase child
        | remove k => exact hroom.keep (Nat.le_trans (size_erase_le children k) hsize)
        | setScalar scalar => cases hbranch
        | setText written => cases hbranch
    have hrest := ih hnext (Nat.le_max_right _ _) hcomposite
    have hlargest : max (max n (change.apply node).size) ((change.apply node).largest changes) =
        max n (node.largest (change :: changes)) := by
      have := size_le_largest (change.apply node) changes
      rw [largest]
      omega
    rwa [hlargest] at hrest

/-- **Changes that restore the children.**  The node is equal to what it was only if it was so before and
its room was enough all the time. -/
theorem same_applyAll_iff (hplace : node.HasPlace) (hcomposite : node.isLeaf = false)
    {changes : List Change}
    (hitems : (applyAll changes node).children?.map KeyedList.items = node.children?.map KeyedList.items) :
    node.same (applyAll changes node) = true ↔
      node.same node = true ∧ node.largest changes ≤ node.room := by
  cases node with
  | leaf key scalar => cases hcomposite
  | branch key children =>
    obtain ⟨hpos, hsize⟩ := hplace children rfl
    have hkey := key_applyAll changes (branch key children)
    have hself : IsLeastDoubling children.capacity children.size (branch key children).room :=
      isLeastDoubling_self hsize
    have hroom := isLeastDoubling_applyAll hpos changes hself (Nat.le_refl _)
    revert hitems hkey hroom
    cases applyAll changes (branch key children) with
    | leaf other scalar => exact fun hitems => nomatch hitems
    | branch other changed =>
      intro hitems hkey hroom
      obtain rfl : other = key := hkey
      have hitems : changed.items = children.items := Option.some.inj hitems
      have hlargest : max children.size ((branch other children).largest changes) =
          (branch other children).largest changes :=
        Nat.max_eq_right (size_le_largest (branch other children) changes)
      have hsame : changed.capacity = children.capacity ↔
          (branch other children).largest changes ≤ children.capacity := by
        rw [← hlargest]
        exact (hroom rfl).eq_self_iff
      rw [same_branch_iff, same_branch_iff, hitems, @eq_comm _ children.capacity]
      exact ⟨fun ⟨hk, hcap, hall⟩ => ⟨⟨hk, rfl, hall⟩, hsame.1 hcap⟩,
        fun ⟨⟨hk, _, hall⟩, hle⟩ => ⟨hk, hsame.2 hle, hall⟩⟩

/-! ### Children that are added and removed again -/

theorem applyAll_add (key : String) (children : KeyedList Node) (added : List Node) :
    applyAll (added.map .add) (branch key children) = branch key (children.replaceAll added) := by
  induction added generalizing children with
  | nil => rfl
  | cons child added ih => exact ih (children.replace child)

theorem applyAll_remove (key : String) (children : KeyedList Node) (removed : List String) :
    applyAll (removed.map .remove) (branch key children) = branch key (children.eraseAll removed) := by
  induction removed generalizing children with
  | nil => rfl
  | cons k removed ih => exact ih (children.erase k)

theorem largest_append (node : Node) (changes others : List Change) :
    node.largest (changes ++ others) =
      max (node.largest changes) ((applyAll changes node).largest others) := by
  induction changes generalizing node with
  | nil => exact (Nat.max_eq_right (size_le_largest node others)).symm
  | cons change changes ih =>
    rw [List.cons_append, largest, largest, ih, Nat.max_assoc]
    rfl

theorem largest_add (key : String) {children : KeyedList Node} {added : List Node}
    (hfresh : ∀ c ∈ added, children.contains c.key = false) (hnodup : (added.map Node.key).Nodup) :
    (branch key children).largest (added.map .add) = children.size + added.length ∧
      (children.replaceAll added).size = children.size + added.length := by
  induction added generalizing children with
  | nil => exact ⟨rfl, rfl⟩
  | cons child added ih =>
    obtain ⟨hchild, hfresh⟩ := List.forall_mem_cons.1 hfresh
    obtain ⟨hnew, hnodup⟩ := List.nodup_cons.1 hnodup
    have hsize : (children.replace child).size = children.size + 1 := by
      rw [replace_of_not_contains (Bool.eq_false_iff.1 hchild), size_insert]
    have hrest : ∀ c ∈ added, (children.replace child).contains c.key = false := by
      intro c hc
      refine Bool.eq_false_iff.2 fun hcontains => ?_
      obtain ⟨x, hx, hkey⟩ := List.any_eq_true.1 hcontains
      rcases mem_of_mem_replace hx with rfl | hx
      · exact hnew (List.mem_map.2 ⟨c, hc, (hasKey_iff.1 hkey).symm⟩)
      · exact Bool.eq_false_iff.1 (hfresh c hc) (List.any_eq_true.2 ⟨x, hx, hkey⟩)
    obtain ⟨hlargest, hadded⟩ := ih hrest hnodup
    constructor
    · show max children.size ((branch key (children.replace child)).largest (added.map .add)) = _
      rw [hlargest, hsize, List.length_cons]
      omega
    · show ((children.replace child).replaceAll added).size = _
      rw [hadded, hsize, List.length_cons]
      omega

theorem largest_remove (key : String) (children : KeyedList Node) (removed : List String) :
    (branch key children).largest (removed.map .remove) = children.size := by
  induction removed generalizing children with
  | nil => rfl
  | cons k removed ih =>
    show max children.size ((branch key (children.erase k)).largest (removed.map .remove)) = children.size
    rw [ih]
    exact Nat.max_eq_left (size_erase_le children k)

/-- What is left when children with new keys were added and are removed again. -/
structure Restores (node : Node) (added : List Node) (removed : List String) : Prop where
  children_eq : (applyAll (added.map .add ++ removed.map .remove) node).children?.map KeyedList.items =
    node.children?.map KeyedList.items
  content_eq : (applyAll (added.map .add ++ removed.map .remove) node).content = node.content
  /-- The node is equal to what it was only if all its children found place in the old room. -/
  same_iff : node.same (applyAll (added.map .add ++ removed.map .remove) node) = true ↔
    node.same node = true ∧ node.size + added.length ≤ node.room

theorem restores_of_fresh (hordered : node.HasOrderedChildren) (hplace : node.HasPlace)
    (hcomposite : node.isLeaf = false) {added : List Node} {removed : List String}
    (hfresh : ∀ c ∈ added, node.contains c.key = false) (hnodup : (added.map Node.key).Nodup)
    (hremoved : removed.Perm (added.map Node.key)) : Restores node added removed := by
  cases node with
  | leaf key scalar => cases hcomposite
  | branch key children =>
    have hself := Represents.self (hordered children rfl)
    have hfresh : ∀ c ∈ added, children.contains c.key = false := by
      intro c hc
      rw [hself.contains_eq]
      exact hfresh c hc
    have hchanged : applyAll (added.map .add ++ removed.map .remove) (branch key children) =
        branch key ((children.replaceAll added).eraseAll removed) := by
      rw [applyAll, List.foldl_append, ← applyAll, ← applyAll, applyAll_add, applyAll_remove]
    have hrestored : ((children.replaceAll added).eraseAll removed).Represents children.find? := by
      have hgone := (hself.replaceAll added).eraseAll removed
      refine ⟨hgone.ordered, fun k => (hgone.find?_eq k).trans ?_⟩
      by_cases hk : k ∈ removed
      · -- a key that came was new
        obtain ⟨c, hc, rfl⟩ := List.mem_map.1 (hremoved.mem_iff.1 hk)
        rw [if_pos hk]
        exact (find?_eq_none_iff.2 (Bool.eq_false_iff.1 (hfresh c hc))).symm
      · -- no other key came
        have hnone : added.reverse.find? (hasKey k) = none := by
          refine List.find?_eq_none.2 fun c hc hkey => hk (hremoved.mem_iff.2 ?_)
          exact List.mem_map.2 ⟨c, List.mem_reverse.1 hc, hasKey_iff.1 hkey⟩
        rw [if_neg hk, hnone, Option.none_or]
    have hitems := hrestored.items_eq hself
    have hlargest : (branch key children).largest (added.map .add ++ removed.map .remove) =
        children.size + added.length := by
      obtain ⟨hlargest, hsize⟩ := largest_add key hfresh hnodup
      rw [largest_append, hlargest, applyAll_add, largest_remove, hsize, Nat.max_self]
    have hchildren : (applyAll (added.map .add ++ removed.map .remove) (branch key children)).children?.map
        KeyedList.items = (branch key children).children?.map KeyedList.items := by
      rw [hchanged]
      exact congrArg some hitems
    refine ⟨hchildren, ?_, ?_⟩
    · rw [hchanged, content, content, contentWith_branch, contentWith_branch, hitems]
    · rw [same_applyAll_iff hplace rfl hchildren, hlargest]
      rfl

end TreeScript.Node

namespace TreeScript

open KeyedList Node

/-- **Equality takes in the room**: two lists with the same items are equal exactly if no doubling of their
first room is between the largest sizes that they have had, and two nodes exactly if they hold the same and
have the same rooms.  Children that come and go again leave a node equal to what it was only if all of them
found place in the room that was there. -/
theorem same_iff_content_and_room {α κ : Type} [Keyed α κ] [Ord κ] [BEq α] (capacity : Nat)
    (es fs : List (Edit α)) :
    History.ComparesRoom capacity es fs ∧
      (∀ m n : Node,
        (m.same n = true ↔ m.content.same n.content = true ∧ m.rooms = n.rooms) ∧
          (m.Everywhere HasLeastRoom → n.Everywhere HasLeastRoom →
            m.same n = m.content.same n.content)) ∧
      ∀ node, Obtained node → node.isLeaf = false →
        (∀ changes, (applyAll changes node).children?.map KeyedList.items =
            node.children?.map KeyedList.items →
          (node.same (applyAll changes node) = true ↔
            node.same node = true ∧ node.largest changes ≤ node.room)) ∧
        ∀ (added : List Node) (removed : List String),
          (∀ c ∈ added, node.contains c.key = false) → (added.map Node.key).Nodup →
          removed.Perm (added.map Node.key) → Restores node added removed := by
  refine ⟨History.comparesRoom_run capacity es fs,
    fun m n => ⟨Node.same_iff m n, same_eq_of_hasLeastRoom⟩, fun node hobtained hcomposite => ?_⟩
  have hordered := (hobtained.everywhere isKept_hasOrderedChildren).self
  have hplace := (hobtained.everywhere isKept_hasPlace).self
  exact ⟨fun _ => same_applyAll_iff hplace hcomposite,
    fun _ _ => restores_of_fresh hordered hplace hcomposite⟩

theorem same_iff_content_and_room_sample :
    let edits : List (Edit Node) := [.insert (.leaf "a" .empty), .insert (.leaf "b" .empty), .remove "a"]
    let node : Node := .composite "n" [.leaf "a" .empty]
    History.ComparesRoom defaultCapacity edits [.insert (.leaf "b" .empty)] ∧
      (node.same node = node.content.same node.content) ∧
      Restores node [.leaf "c" .empty, .leaf "b" .empty] ["c", "b"] := by
  intro edits node
  have hobtained : Obtained node := by
    refine .composite "n" fun n hn => ?_
    obtain rfl := List.mem_singleton.1 hn
    exact .leaf "a" .empty
  have hleast : node.Everywhere HasLeastRoom := by
    refine everywhere_hasLeastRoom_composite "n" fun n hn => ?_
    obtain rfl := List.mem_singleton.1 hn
    exact everywhere_hasLeastRoom_leaf "a" .empty
  obtain ⟨hlists, hnodes, hchanges⟩ :=
    same_iff_content_and_room defaultCapacity edits [.insert (.leaf "b" .empty)]
  exact ⟨hlists, (hnodes node node).2 hleast hleast,
    (hchanges node hobtained rfl).2 _ _ (by with_unfolding_all decide) (by decide) (.refl _)⟩

/-- Two lists with the same items that are not equal: one of them has held one item more.  And a node that is
not equal to what it was before its children came and went. -/
theorem exists_same_items_not_equal :
    (∃ es fs : List (Edit Node),
      (History.run defaultCapacity es).list.items = (History.run defaultCapacity fs).list.items ∧
      ((History.run defaultCapacity es).list == (History.run defaultCapacity fs).list) = false) ∧
    ∃ (node : Node) (changes : List Change),
      (applyAll changes node).content = node.content ∧ node.same node = true ∧
        node.same (applyAll changes node) = false := by
  refine ⟨⟨[.insertAll (.replicate 17 (.leaf "a" .empty)), .remove "a"],
    [.insertAll (.replicate 16 (.leaf "a" .empty))], ?_, by with_unfolding_all rfl⟩, .composite "n" [],
    ((List.range 17).map fun i => .add (.leaf (.ofList (.replicate i 'a')) .empty)) ++
      (List.range 17).map fun i => .remove (.ofList (.replicate i 'a')), ?_, by with_unfolding_all rfl,
    by with_unfolding_all rfl⟩
  · with_unfolding_all rfl
  · with_unfolding_all rfl

end TreeScript
