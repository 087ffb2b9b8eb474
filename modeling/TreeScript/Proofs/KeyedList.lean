import TreeScript.KeyedList
import TreeScript.Proofs.Text

/-!
# Keyed lists in order

A list that is filled by replacing has one item for each key, in the order of the keys.  What is put
in with increasing keys stands in the list as it came.

- `Ordered`, `StrictlyOrdered`: items with increasing keys, and with strictly increasing ones.
- `Ordered.lt_of_mem_dropWhile`: what stands behind the place of a new item.
- `StrictlyOrdered.insert`, `perm_insert`, `StrictlyOrdered.replace`: one step.
- `items_replaceAll`, `strictlyOrdered_replaceAll`: several items, one after the other.
-/

namespace TreeScript.KeyedList

open Std

variable {α κ : Type} [Keyed α κ] [Ord κ]

/-- Whether the key of an item is not larger than the key of another one. -/
def notLater (x y : α) : Bool := (compare (Keyed.key x) (Keyed.key y)).isLE

/-- Items with keys that do not decrease. -/
def Ordered (xs : List α) : Prop := xs.Pairwise fun x y => notLater x y = true

/-- Items with strictly increasing keys. -/
def StrictlyOrdered (xs : List α) : Prop :=
  xs.Pairwise fun x y => compare (Keyed.key x) (Keyed.key y) = .lt

/-- Puts in several items in place of those with their keys. -/
def replaceAll (list : KeyedList α) (xs : List α) : KeyedList α := xs.foldl replace list

theorem notLater_trans [TransOrd κ] (x y z : α) (hxy : notLater x y = true)
    (hyz : notLater y z = true) : notLater x z = true :=
  TransCmp.isLE_trans hxy hyz

theorem notLater_of_notAfter [OrientedOrd κ] {x y : α} (h : notAfter x y = true) :
    notLater y x = true := by
  have hswap : compare (Keyed.key y) (Keyed.key x) =
      (compare (Keyed.key x) (Keyed.key y)).swap := OrientedCmp.eq_swap
  simp only [notAfter, ne_eq, decide_eq_true_eq] at h
  rw [notLater, hswap]
  cases hc : compare (Keyed.key x) (Keyed.key y) with
  | lt => exact absurd hc h
  | eq => rfl
  | gt => rfl

theorem ordered_iff_keys {xs : List α} :
    Ordered xs ↔ (xs.map Keyed.key).Pairwise fun k l => (compare k l).isLE = true := by
  rw [List.pairwise_map]
  rfl

theorem strictlyOrdered_iff_keys {xs : List α} :
    StrictlyOrdered xs ↔ (xs.map Keyed.key).Pairwise fun k l => compare k l = .lt := by
  rw [List.pairwise_map]
  rfl

theorem StrictlyOrdered.ordered {xs : List α} (h : StrictlyOrdered xs) : Ordered xs := by
  refine List.Pairwise.imp (fun {x y} hxy => ?_) h
  rw [notLater, hxy]
  rfl

theorem hasKey_iff [LawfulEqOrd κ] {k : κ} {x : α} : hasKey k x = true ↔ Keyed.key x = k := by
  simp [hasKey]

/-- Behind the place where an item goes in, the keys are larger. -/
theorem Ordered.lt_of_mem_dropWhile [TransOrd κ] {xs : List α} (h : Ordered xs) (x : α) :
    ∀ y ∈ xs.dropWhile (notAfter x), compare (Keyed.key x) (Keyed.key y) = .lt := by
  -- the first item there is larger, and no other one is smaller than the first
  have hrest : Ordered (xs.dropWhile (notAfter x)) := h.sublist (List.dropWhile_sublist _)
  have hfirst := Text.not_head?_dropWhile (notAfter x) xs
  revert hrest hfirst
  cases xs.dropWhile (notAfter x) with
  | nil => simp
  | cons z zs =>
    intro hrest hfirst y hy
    have hz : compare (Keyed.key x) (Keyed.key z) = .lt := by
      simpa [notAfter] using hfirst z rfl
    rcases List.mem_cons.1 hy with rfl | hy
    · exact hz
    · exact TransCmp.lt_of_lt_of_isLE hz ((List.pairwise_cons.1 hrest).1 y hy)

theorem hasKey_eq_false_of_lt {x y : α} (h : compare (Keyed.key y) (Keyed.key x) = .lt) :
    hasKey (Keyed.key x) y = false := by
  simp [hasKey, h]

/-- An item with a new last key goes to the end. -/
theorem items_replace_of_lt [OrientedOrd κ] {list : KeyedList α} {x : α}
    (h : ∀ y ∈ list.items, compare (Keyed.key y) (Keyed.key x) = .lt) :
    (list.replace x).items = list.items ++ [x] := by
  have herase : list.items.eraseP (hasKey (Keyed.key x)) = list.items := by
    refine List.eraseP_of_forall_not fun y hy => ?_
    rw [hasKey_eq_false_of_lt (h y hy)]
    exact Bool.false_ne_true
  have hnotAfter : ∀ y ∈ list.items, notAfter x y = true := by
    intro y hy
    have : compare (Keyed.key x) (Keyed.key y) = .gt := OrientedCmp.gt_of_lt (h y hy)
    simp [notAfter, this]
  simp only [replace, insert, erase, herase]
  rw [List.dropWhile_eq_nil_iff.2 hnotAfter, List.takeWhile_eq_self_iff.2 hnotAfter]

/-- What comes in the strict order of the keys stays as it came. -/
theorem items_replaceAll [OrientedOrd κ] {list : KeyedList α} {xs : List α}
    (h : StrictlyOrdered (list.items ++ xs)) : (list.replaceAll xs).items = list.items ++ xs := by
  induction xs generalizing list with
  | nil => simp [replaceAll]
  | cons x xs ih =>
    have hlast : ∀ y ∈ list.items, compare (Keyed.key y) (Keyed.key x) = .lt := fun y hy =>
      (List.pairwise_append.1 h).2.2 y hy x (by simp)
    have hitems := items_replace_of_lt hlast
    rw [replaceAll, List.foldl_cons, ← replaceAll, ih]
    · rw [hitems, List.append_assoc]
      rfl
    · rwa [hitems, List.append_assoc]

/-- Replacing brings in nothing else. -/
theorem mem_of_mem_replace {list : KeyedList α} {x y : α} (h : y ∈ (list.replace x).items) :
    y = x ∨ y ∈ list.items := by
  simp only [replace, insert, erase, List.mem_append, List.mem_cons] at h
  rcases h with h | rfl | h
  · exact Or.inr (List.mem_of_mem_eraseP ((List.takeWhile_sublist _).mem h))
  · exact Or.inl rfl
  · exact Or.inr (List.mem_of_mem_eraseP ((List.dropWhile_sublist _).mem h))

theorem mem_of_mem_replaceAll {list : KeyedList α} {xs : List α} {y : α}
    (h : y ∈ (list.replaceAll xs).items) : y ∈ xs ∨ y ∈ list.items := by
  induction xs generalizing list with
  | nil => exact Or.inr h
  | cons x xs ih =>
    rcases ih h with hxs | hlist
    · exact Or.inl (List.mem_cons_of_mem _ hxs)
    · rcases mem_of_mem_replace hlist with rfl | hlist
      · exact Or.inl (by simp)
      · exact Or.inr hlist

/-- No item has the key that was taken out of a list in order. -/
theorem hasKey_eq_false_of_mem_erase [TransOrd κ] {xs : List α} {k : κ} (h : StrictlyOrdered xs) :
    ∀ y ∈ xs.eraseP (hasKey k), hasKey k y = false := by
  induction xs with
  | nil => simp
  | cons x xs ih =>
    obtain ⟨hx, hxs⟩ := List.pairwise_cons.1 h
    intro y hy
    rw [List.eraseP_cons] at hy
    cases hkey : hasKey k x with
    | true =>
      -- the item was taken out, and those behind it have greater keys
      simp only [hkey, cond_true] at hy
      have heq : compare (Keyed.key x) k = .eq := by simpa [hasKey] using hkey
      have hlt : compare k (Keyed.key y) = .lt := by
        rw [← TransCmp.congr_left heq]
        exact hx y hy
      simp [hasKey, OrientedCmp.gt_of_lt hlt]
    | false =>
      simp only [hkey, cond_false, List.mem_cons] at hy
      rcases hy with rfl | hy
      · exact hkey
      · exact ih hxs y hy

/-- An item with a new key keeps the strict order. -/
theorem StrictlyOrdered.insert [TransOrd κ] {list : KeyedList α} (h : StrictlyOrdered list.items)
    {x : α} (hfresh : ∀ y ∈ list.items, hasKey (Keyed.key x) y = false) :
    StrictlyOrdered (list.insert x).items := by
  have hbefore : ∀ y ∈ list.items.takeWhile (notAfter x),
      compare (Keyed.key y) (Keyed.key x) = .lt := by
    intro y hy
    have hle : notLater y x = true :=
      notLater_of_notAfter (Text.forall_mem_takeWhile _ _ y hy)
    have hne := hfresh y ((List.takeWhile_sublist _).mem hy)
    simp only [hasKey, decide_eq_false_iff_not] at hne
    rw [notLater] at hle
    cases hc : compare (Keyed.key y) (Keyed.key x) with
    | lt => rfl
    | eq => exact absurd hc hne
    | gt =>
      rw [hc] at hle
      cases hle
  have hbehind := h.ordered.lt_of_mem_dropWhile x
  have hrest : StrictlyOrdered (list.items.dropWhile (notAfter x)) :=
    h.sublist (List.dropWhile_sublist _)
  refine List.pairwise_append.2 ⟨h.sublist (List.takeWhile_sublist _),
    List.pairwise_cons.2 ⟨hbehind, hrest⟩, ?_⟩
  intro y hy z hz
  rcases List.mem_cons.1 hz with rfl | hz
  · exact hbefore y hy
  · exact TransCmp.lt_trans (hbefore y hy) (hbehind z hz)

/-- Putting an item in changes nothing else. -/
theorem perm_insert (list : KeyedList α) (x : α) :
    (list.insert x).items.Perm (x :: list.items) := by
  have hmiddle : (list.insert x).items.Perm (x :: (list.items.takeWhile (notAfter x) ++
      list.items.dropWhile (notAfter x))) := List.perm_middle
  rwa [List.takeWhile_append_dropWhile] at hmiddle

/-- Replacing keeps the strict order. -/
theorem StrictlyOrdered.replace [TransOrd κ] {list : KeyedList α} (h : StrictlyOrdered list.items)
    (x : α) : StrictlyOrdered (list.replace x).items := by
  have herase : StrictlyOrdered (list.erase (Keyed.key x)).items := h.sublist List.eraseP_sublist
  exact herase.insert (hasKey_eq_false_of_mem_erase h)

theorem strictlyOrdered_replaceAll [TransOrd κ] {list : KeyedList α}
    (h : StrictlyOrdered list.items) (xs : List α) :
    StrictlyOrdered (list.replaceAll xs).items := by
  induction xs generalizing list with
  | nil => exact h
  | cons x xs ih => exact ih (h.replace x)

end TreeScript.KeyedList
