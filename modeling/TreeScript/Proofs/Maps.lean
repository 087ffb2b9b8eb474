import TreeScript.Proofs.Multimap
import Mathlib.Logic.Function.Basic

/-!
# Keyed lists as finite maps

A keyed list in the strict order of its keys is a finite map, and to replace, to erase and to update an
item are the operations of the map.  The map determines the items; if the list was filled from the empty
list by replacing, it also determines the room.

- `StrictlyOrdered.filter_eq`, `Ordered.search?_eq`, `StrictlyOrdered.items_update`: at most one item for
  each key.
- `Represents`: the map that a list stands for, and `Represents.contains_eq`, `Represents.mem_keys_iff`,
  `Represents.get?_eq`: the look-ups.
- `Represents.replace`, `Represents.erase`, `Represents.update`, `Represents.replaceAll`: the changes.
- `replaceAll_congr`: a list that is filled by replacing keeps the last item with each key.
-/

namespace TreeScript.KeyedList

open Std

variable {α κ : Type} [Keyed α κ] [Ord κ]

/-! ### At most one item for each key -/

/-- The order of the items is an order of their keys. -/
theorem StrictlyOrdered.of_keys_eq {list other : KeyedList α} (h : StrictlyOrdered list.items)
    (hkeys : other.keys = list.keys) : StrictlyOrdered other.items := by
  rw [strictlyOrdered_iff_keys] at h ⊢
  rw [keys, keys] at hkeys
  rwa [hkeys]

/-- The items with a key are none or one. -/
theorem StrictlyOrdered.filter_eq [TransOrd κ] {xs : List α} (h : StrictlyOrdered xs) (k : κ) :
    xs.filter (hasKey k) = (xs.find? (hasKey k)).toList := by
  induction xs with
  | nil => rfl
  | cons x xs ih =>
    obtain ⟨hx, hxs⟩ := List.pairwise_cons.1 h
    by_cases hk : hasKey k x = true
    · have htail : xs.filter (hasKey k) = [] :=
        List.filter_eq_nil_iff.2 fun y hy => not_hasKey_of_lt hk (hx y hy)
      rw [List.filter_cons_of_pos hk, htail, List.find?_cons_of_pos hk]
      rfl
    · rw [List.filter_cons_of_neg hk, ih hxs, List.find?_cons_of_neg hk]

/-- Halving finds what a walk finds, if there is at most one item with the key. -/
theorem Ordered.search?_eq [TransOrd κ] {list : KeyedList α} (h : Ordered list.items) {k : κ}
    (hone : list.items.filter (hasKey k) = (list.find? k).toList) : list.search? k = list.find? k := by
  have hsearch := isFound_search? h k
  have hfind := isFound_find? list k
  cases hx : list.find? k with
  | none =>
    rw [hx] at hfind
    rw [← Option.not_isSome_iff_eq_none, hsearch.isSome_iff, ← hfind.isSome_iff]
    exact Bool.false_ne_true
  | some x =>
    refine hsearch.eq_some ?_
    rw [hone, hx]
    rfl

theorem StrictlyOrdered.search?_eq [TransOrd κ] {list : KeyedList α}
    (h : StrictlyOrdered list.items) (k : κ) : list.search? k = list.find? k :=
  h.ordered.search?_eq (h.filter_eq k)

theorem find?_eq_none_iff {list : KeyedList α} {k : κ} :
    list.find? k = none ↔ ¬list.contains k = true := by
  rw [contains, ← List.isSome_find?, ← find?, Option.not_isSome_iff_eq_none]

/-- To replace an item that is not there is to put it in. -/
theorem replace_of_not_contains {list : KeyedList α} {x : α}
    (h : ¬list.contains (Keyed.key x) = true) : list.replace x = list.insert x := by
  have hitems : list.items.eraseP (hasKey (Keyed.key x)) = list.items :=
    List.eraseP_of_forall_not fun y hy hkey => h (List.any_eq_true.2 ⟨y, hy, hkey⟩)
  rw [KeyedList.replace, KeyedList.erase, hitems]

/-- To change the first item with a key into itself changes nothing. -/
theorem update_eq_self {list : KeyedList α} {k : κ} {change : α → α}
    (h : ∀ x ∈ list.find? k, change x = x) : list.update k change = list := by
  obtain ⟨items, room⟩ := list
  have hitems : items.takeWhile (!hasKey k ·) ++
      (items.dropWhile (!hasKey k ·)).modifyHead change = items := by
    induction items with
    | nil => rfl
    | cons x xs ih =>
      by_cases hk : hasKey k x = true
      · have hx : change x = x := h x (List.find?_cons_of_pos hk)
        simp [hk, hx]
      · have hxs := ih fun y hy => h y ((List.find?_cons_of_neg hk).trans hy)
        simp [hk, hxs]
  rw [update, hitems]

/-- Takes out the first item with each of several keys. -/
def eraseAll (list : KeyedList α) (ks : List κ) : KeyedList α := ks.foldl erase list

/-- What stands in a list after a change stood there before, or is what the change made of an item. -/
theorem mem_of_mem_update {list : KeyedList α} {k : κ} {change : α → α} {y : α} (h : y ∈ (list.update k change).items) :
    y ∈ list.items ∨ ∃ x ∈ list.items, y = change x := by
  rcases List.mem_append.1 h with h | h
  · exact Or.inl ((List.takeWhile_sublist _).mem h)
  · have hrest := List.dropWhile_sublist (l := list.items) (!hasKey k ·)
    revert h hrest
    cases list.items.dropWhile (!hasKey k ·) with
    | nil => exact fun h => absurd h List.not_mem_nil
    | cons x xs =>
      intro h hrest
      rcases List.mem_cons.1 h with rfl | h
      · exact Or.inr ⟨x, hrest.mem (by simp), rfl⟩
      · exact Or.inl (hrest.mem (List.mem_cons_of_mem x h))

section Lawful

variable [LawfulEqOrd κ] {list : KeyedList α}

theorem contains_iff_mem_keys {k : κ} : list.contains k = true ↔ k ∈ list.keys := by
  rw [contains, List.any_eq_true, keys, List.mem_map]
  exact exists_congr fun x => and_congr_right fun _ => hasKey_iff

/-- Items in order, no two of which have one key, are in strict order. -/
theorem Ordered.strictlyOrdered {xs : List α} (h : Ordered xs) (hnodup : (xs.map Keyed.key).Nodup) :
    StrictlyOrdered xs := by
  refine (h.and (List.pairwise_map.1 hnodup)).imp fun {x y} hxy => ?_
  obtain ⟨hle, hne⟩ := hxy
  rw [notLater] at hle
  cases hc : compare (Keyed.key x) (Keyed.key y) with
  | lt => rfl
  | eq => exact absurd (Std.LawfulEqOrd.compare_eq_iff_eq.1 hc) hne
  | gt =>
    rw [hc] at hle
    cases hle

/-- An update changes the one item with the key. -/
theorem StrictlyOrdered.items_update (h : StrictlyOrdered list.items) (k : κ) (change : α → α) :
    (list.update k change).items =
      list.items.map fun x => if hasKey k x then change x else x := by
  obtain ⟨items, room⟩ := list
  simp only [update]
  induction items with
  | nil => rfl
  | cons x xs ih =>
    obtain ⟨hx, hxs⟩ := List.pairwise_cons.1 h
    by_cases hk : hasKey k x = true
    · have hothers : ∀ y ∈ xs, (if hasKey k y then change y else y) = id y := by
        intro y hy
        refine if_neg fun hyk => ?_
        have hlt := hx y hy
        rw [hasKey_iff.1 hk, hasKey_iff.1 hyk] at hlt
        simp at hlt
      rw [List.map_cons, List.map_congr_left hothers, List.map_id]
      simp [hk]
    · have htail := ih hxs
      simp [hk, htail]

theorem StrictlyOrdered.keys_update (h : StrictlyOrdered list.items) (k : κ) {change : α → α}
    (hkeeps : ∀ x, Keyed.key (change x) = Keyed.key x) : (list.update k change).keys = list.keys := by
  rw [keys, keys, h.items_update, List.map_map]
  refine List.map_congr_left fun x _ => ?_
  rw [Function.comp_apply]
  split
  · exact hkeeps x
  · rfl

variable [TransOrd κ]

/-- A list of items with different keys is in strict order, and holds these items. -/
theorem strictlyOrdered_ofList {xs : List α} (h : (xs.map Keyed.key).Nodup) :
    StrictlyOrdered (ofList xs).items ∧ (ofList xs).items.Perm xs := by
  have hstable := isStableSort_ofList xs
  have hkeys : ((ofList xs).items.map Keyed.key).Nodup :=
    (hstable.perm.map Keyed.key).nodup_iff.2 h
  exact ⟨hstable.ordered.strictlyOrdered hkeys, hstable.perm⟩

theorem StrictlyOrdered.find?_eq_some_iff (h : StrictlyOrdered list.items) {k : κ} {x : α} :
    list.find? k = some x ↔ x ∈ list.items ∧ Keyed.key x = k := by
  have hclass := h.filter_eq k
  constructor
  · intro hx
    exact ⟨List.mem_of_find?_eq_some hx, hasKey_iff.1 (List.find?_some hx)⟩
  · rintro ⟨hx, hk⟩
    have hmem : x ∈ list.items.filter (hasKey k) := List.mem_filter.2 ⟨hx, hasKey_iff.2 hk⟩
    rw [hclass, Option.mem_toList] at hmem
    exact hmem

theorem StrictlyOrdered.mem_erase_iff (h : StrictlyOrdered list.items) {k : κ} {x : α} :
    x ∈ (list.erase k).items ↔ x ∈ list.items ∧ Keyed.key x ≠ k := by
  constructor
  · intro hx
    refine ⟨List.mem_of_mem_eraseP hx, fun hk => ?_⟩
    have hne := hasKey_eq_false_of_mem_erase h x hx
    rw [hasKey_iff.2 hk] at hne
    cases hne
  · rintro ⟨hx, hk⟩
    exact (List.mem_eraseP_of_neg fun hkey => hk (hasKey_iff.1 hkey)).2 hx

theorem StrictlyOrdered.mem_replace_iff (h : StrictlyOrdered list.items) {x y : α} :
    y ∈ (list.replace x).items ↔ y = x ∨ (y ∈ list.items ∧ Keyed.key y ≠ Keyed.key x) := by
  rw [KeyedList.replace, (perm_insert _ x).mem_iff, List.mem_cons, h.mem_erase_iff]

end Lawful

/-! ### The map that a list stands for -/

/-- The list stands for a map: the keys increase strictly, and look-ups give what the map gives. -/
structure Represents (list : KeyedList α) (m : κ → Option α) : Prop where
  ordered : StrictlyOrdered list.items
  find?_eq : ∀ k, list.find? k = m k

namespace Represents

variable {list other : KeyedList α} {m : κ → Option α}

theorem self (h : StrictlyOrdered list.items) : list.Represents list.find? := ⟨h, fun _ => rfl⟩

theorem empty : (KeyedList.empty : KeyedList α).Represents fun _ => none :=
  ⟨.nil, fun _ => rfl⟩

theorem contains_eq (h : list.Represents m) (k : κ) : list.contains k = (m k).isSome := by
  rw [← h.find?_eq k, contains, find?, List.isSome_find?]

theorem keys_pairwise (h : list.Represents m) :
    list.keys.Pairwise fun k l => compare k l = .lt :=
  strictlyOrdered_iff_keys.1 h.ordered

variable [TransOrd κ]

/-- The map determines the items. -/
theorem items_eq (h : list.Represents m) (hother : other.Represents m) : list.items = other.items := by
  refine h.ordered.ordered.eq_of_filter_eq hother.ordered.ordered fun k => ?_
  have hfind : list.find? k = other.find? k := (h.find?_eq k).trans (hother.find?_eq k).symm
  rw [h.ordered.filter_eq, hother.ordered.filter_eq]
  exact congrArg Option.toList hfind

theorem search?_eq (h : list.Represents m) (k : κ) : list.search? k = m k :=
  (h.ordered.search?_eq k).trans (h.find?_eq k)

variable [LawfulEqOrd κ]

theorem eq_some_iff (h : list.Represents m) {k : κ} {x : α} :
    m k = some x ↔ x ∈ list.items ∧ Keyed.key x = k := by
  rw [← h.find?_eq, h.ordered.find?_eq_some_iff]

theorem mem_keys_iff (h : list.Represents m) {k : κ} : k ∈ list.keys ↔ (m k).isSome = true := by
  rw [keys, List.mem_map, Option.isSome_iff_exists]
  exact exists_congr fun x => h.eq_some_iff.symm

/-- The item at a place is the one that the map has for the key there. -/
theorem get?_eq (h : list.Represents m) (i : Nat) : list.get? i = list.keys[i]?.bind m := by
  rw [KeyedList.get?, keys, List.getElem?_map]
  cases hx : list.items[i]? with
  | none => rfl
  | some x => exact (h.eq_some_iff.2 ⟨List.mem_of_getElem? hx, rfl⟩).symm

variable [DecidableEq κ]

/-- A change of what a map has for one key. -/
theorem of_mem_iff (h : list.Represents m) {k : κ} {value : Option α}
    (hvalue : ∀ x ∈ value, Keyed.key x = k) (hordered : StrictlyOrdered other.items)
    (hmem : ∀ y, y ∈ other.items ↔ y ∈ value ∨ (y ∈ list.items ∧ Keyed.key y ≠ k)) :
    other.Represents (Function.update m k value) := by
  refine ⟨hordered, fun l => Option.ext fun y => ?_⟩
  rw [hordered.find?_eq_some_iff, hmem]
  by_cases hl : l = k
  · subst hl
    rw [Function.update_self]
    constructor
    · rintro ⟨hy | ⟨-, hne⟩, hk⟩
      · exact hy
      · exact absurd hk hne
    · intro hy
      exact ⟨Or.inl hy, hvalue y hy⟩
  · rw [Function.update_of_ne hl, h.eq_some_iff]
    constructor
    · rintro ⟨hy | ⟨hy, -⟩, hk⟩
      · exact absurd (hk.symm.trans (hvalue y hy)) hl
      · exact ⟨hy, hk⟩
    · rintro ⟨hy, rfl⟩
      exact ⟨Or.inr ⟨hy, hl⟩, rfl⟩

theorem replace (h : list.Represents m) (x : α) :
    (list.replace x).Represents (Function.update m (Keyed.key x) (some x)) := by
  refine h.of_mem_iff ?_ (h.ordered.replace x) fun y => ?_
  · rintro y ⟨⟩
    rfl
  · rw [h.ordered.mem_replace_iff, Option.mem_some_iff, eq_comm]

theorem erase (h : list.Represents m) (k : κ) :
    (list.erase k).Represents (Function.update m k none) := by
  refine h.of_mem_iff ?_ (h.ordered.sublist List.eraseP_sublist) fun y => ?_
  · rintro y ⟨⟩
  · rw [h.ordered.mem_erase_iff]
    simp

theorem update (h : list.Represents m) (k : κ) {change : α → α}
    (hkeeps : ∀ x, Keyed.key (change x) = Keyed.key x) :
    (list.update k change).Represents (Function.update m k ((m k).map change)) := by
  refine h.of_mem_iff ?_ ?_ fun y => ?_
  · intro y hy
    obtain ⟨x, hx, rfl⟩ := Option.map_eq_some_iff.1 hy
    rw [hkeeps]
    exact (h.eq_some_iff.1 hx).2
  · exact h.ordered.of_keys_eq (h.ordered.keys_update k hkeeps)
  · rw [h.ordered.items_update k change, List.mem_map, Option.mem_def, Option.map_eq_some_iff]
    constructor
    · rintro ⟨x, hx, rfl⟩
      by_cases hk : hasKey k x = true
      · rw [if_pos hk]
        exact Or.inl ⟨x, h.eq_some_iff.2 ⟨hx, hasKey_iff.1 hk⟩, rfl⟩
      · rw [if_neg hk]
        exact Or.inr ⟨hx, fun hkx => hk (hasKey_iff.2 hkx)⟩
    · rintro (⟨x, hx, rfl⟩ | ⟨hy, hne⟩)
      · obtain ⟨hx, hk⟩ := h.eq_some_iff.1 hx
        exact ⟨x, hx, if_pos (hasKey_iff.2 hk)⟩
      · exact ⟨y, hy, if_neg fun hk => hne (hasKey_iff.1 hk)⟩

/-- Of several items with one key the last one is kept. -/
theorem replaceAll (h : list.Represents m) (xs : List α) :
    (list.replaceAll xs).Represents fun k => (xs.reverse.find? (hasKey k)).or (m k) := by
  induction xs generalizing list m with
  | nil => exact ⟨h.ordered, h.find?_eq⟩
  | cons x xs ih =>
    have hxs := ih (h.replace x)
    refine ⟨hxs.ordered, fun k => (hxs.find?_eq k).trans ?_⟩
    rw [List.reverse_cons, List.find?_append, Option.or_assoc]
    congr 1
    by_cases hk : k = Keyed.key x
    · subst hk
      rw [Function.update_self, List.find?_cons_of_pos (hasKey_self x), Option.some_or]
    · have hne : ¬hasKey k x = true := fun hkx => hk (hasKey_iff.1 hkx).symm
      rw [Function.update_of_ne hk, List.find?_cons_of_neg hne, List.find?_nil, Option.none_or]

theorem eraseAll (h : list.Represents m) (ks : List κ) :
    (list.eraseAll ks).Represents fun k => if k ∈ ks then none else m k := by
  induction ks generalizing list m with
  | nil => exact ⟨h.ordered, fun k => by rw [if_neg List.not_mem_nil]; exact h.find?_eq k⟩
  | cons l ks ih =>
    have hks := ih (h.erase l)
    refine ⟨hks.ordered, fun k => (hks.find?_eq k).trans ?_⟩
    by_cases hk : k = l
    · subst hk
      rw [Function.update_self, ite_self, if_pos (by simp)]
    · rw [Function.update_of_ne hk]
      simp [hk]

end Represents

/-! ### The room of a list -/

/-- The room of a list that was filled from the empty list. -/
def roomFor : Nat → Nat
  | 0 => powerOfTwoFrom defaultCapacity
  | n + 1 => if n < roomFor n then roomFor n else 2 * roomFor n

theorem le_roomFor (n : Nat) : n ≤ roomFor n ∧ 0 < roomFor n := by
  induction n with
  | zero => decide
  | succ n ih =>
    rw [roomFor]
    split <;> omega

/-- The room of a list is the one that its size asks for. -/
def Fits (list : KeyedList α) : Prop := list.capacity = roomFor list.size

theorem fits_empty : (KeyedList.empty : KeyedList α).Fits := rfl

/-- Something may go out before the new item comes in, and then there is room already. -/
theorem Fits.replace {list : KeyedList α} (h : list.Fits) (x : α) : (list.replace x).Fits := by
  have hsize : (list.replace x).size = (list.erase (Keyed.key x)).size + 1 :=
    (perm_insert _ x).length_eq
  have hcapacity : (list.replace x).capacity =
      if (list.erase (Keyed.key x)).size < list.capacity then list.capacity
      else 2 * list.capacity := rfl
  have herase : (list.erase (Keyed.key x)).size =
      if list.items.any (hasKey (Keyed.key x)) then list.size - 1 else list.size :=
    List.length_eraseP
  have hfit := (le_roomFor list.size).1
  rw [Fits, hcapacity, hsize, h]
  by_cases hany : list.items.any (hasKey (Keyed.key x)) = true
  · have hpos : 0 < list.size := by
      obtain ⟨y, hy, -⟩ := List.any_eq_true.1 hany
      exact List.length_pos_of_mem hy
    have hone : list.size - 1 + 1 = list.size := by omega
    rw [herase, if_pos hany, hone, if_pos (by omega)]
  · rw [herase, if_neg hany, roomFor]

theorem Fits.replaceAll {list : KeyedList α} (h : list.Fits) (xs : List α) :
    (list.replaceAll xs).Fits := by
  induction xs generalizing list with
  | nil => exact h
  | cons x xs ih => exact ih (h.replace x)

theorem replaceAll_empty_represents [TransOrd κ] [LawfulEqOrd κ] (xs : List α) :
    (empty.replaceAll xs).Represents fun k => xs.reverse.find? (hasKey k) := by
  classical
  simpa using Represents.empty.replaceAll xs

/-- A list that is filled from the empty list is given by the last item with each key. -/
theorem replaceAll_congr [TransOrd κ] [LawfulEqOrd κ] {xs ys : List α}
    (h : ∀ k : κ, xs.reverse.find? (hasKey k) = ys.reverse.find? (hasKey k)) :
    (empty : KeyedList α).replaceAll xs = empty.replaceAll ys := by
  have hxs := replaceAll_empty_represents xs
  rw [funext h] at hxs
  have hitems := hxs.items_eq (replaceAll_empty_represents ys)
  have hcapacity : ((empty : KeyedList α).replaceAll xs).capacity =
      (empty.replaceAll ys).capacity := by
    rw [Fits.replaceAll fits_empty xs, Fits.replaceAll fits_empty ys, size, size, hitems]
  calc (empty : KeyedList α).replaceAll xs
      = ⟨((empty : KeyedList α).replaceAll xs).items, (empty.replaceAll xs).capacity⟩ := rfl
    _ = ⟨(empty.replaceAll ys).items, (empty.replaceAll ys).capacity⟩ := by rw [hitems, hcapacity]
    _ = empty.replaceAll ys := rfl

end TreeScript.KeyedList
