import TreeScript.Procedure.Registry
import TreeScript.Proofs.KeyedList
import Mathlib.Data.List.Basic

/-!
# Keyed lists as multimaps

A keyed list may hold several items with one key.  Whatever edits it goes through, it is the stable sort
of the items that arrived and were not removed: the keys do not decrease, and items with one key stand in
the order in which they came.  To remove a key is to remove the oldest item with it.

Stability is stated class by class: for each key the items with that key are the same list in both
sequences.  This view (`filter (hasKey k)`) has a short law for each edit, and together with the order of
the keys it determines the whole sequence.

- `IsStableSort`, `IsStableSort.eq`, `isStableSort_iff`: stable sorts.
- `IsStableSort.insert`, `IsStableSort.erase`, `IsStableSort.modifyNth`: one edit.
- `Ordered.reverse_settle`: an item that moves from the end to its place.
- `isWindow_halve`, `isSome_place?_iff`, `isFound_search?`: a search by halving.
- `History.Sound.step`, `History.sound_run`, `isMultimap_run`: any sequence of edits.
-/

namespace TreeScript.KeyedList

open Std

variable {α κ : Type} [Keyed α κ] [Ord κ]

/-! ### The order of the keys -/

theorem notLater_total [OrientedOrd κ] (x y : α) : (notLater x y || notLater y x) = true := by
  have hswap : compare (Keyed.key y) (Keyed.key x) =
      (compare (Keyed.key x) (Keyed.key y)).swap := OrientedCmp.eq_swap
  rw [notLater, notLater, hswap]
  cases compare (Keyed.key x) (Keyed.key y) <;> rfl

theorem hasKey_self [OrientedOrd κ] (x : α) : hasKey (Keyed.key x) x = true := by
  simp [hasKey]

/-- Equal keys have the same items. -/
theorem hasKey_congr [TransOrd κ] {k l : κ} (h : compare k l = .eq) :
    (hasKey k : α → Bool) = hasKey l := by
  funext x
  rw [hasKey, hasKey, TransCmp.congr_right h]

/-- Two items with one key may stand in either order. -/
theorem notLater_of_hasKey [TransOrd κ] {k : κ} {x y : α} (hx : hasKey k x = true)
    (hy : hasKey k y = true) : notLater x y = true := by
  have hxk : compare (Keyed.key x) k = .eq := by simpa [hasKey] using hx
  have hyk : compare (Keyed.key y) k = .eq := by simpa [hasKey] using hy
  have hxy : compare (Keyed.key x) (Keyed.key y) = .eq :=
    TransCmp.eq_trans hxk (OrientedCmp.eq_symm hyk)
  simp [notLater, hxy]

/-- What is larger than an item with a key does not have the key. -/
theorem not_hasKey_of_lt [TransOrd κ] {k : κ} {x y : α} (hx : hasKey k x = true)
    (h : compare (Keyed.key x) (Keyed.key y) = .lt) : ¬hasKey k y = true := by
  intro hy
  have hyx : notLater y x = true := notLater_of_hasKey hy hx
  rw [notLater, OrientedCmp.gt_of_lt h] at hyx
  cases hyx

/-! ### Stable sorts -/

/-- The items as they arrived, put in the order of their keys: those with one key stay as they came. -/
structure IsStableSort (arrived stored : List α) : Prop where
  ordered : Ordered stored
  filter_eq : ∀ k : κ, stored.filter (hasKey k) = arrived.filter (hasKey k)

/-- Items in order are determined by the items with each key. -/
theorem Ordered.eq_of_filter_eq [TransOrd κ] {xs ys : List α} (hxs : Ordered xs) (hys : Ordered ys)
    (h : ∀ k : κ, xs.filter (hasKey k) = ys.filter (hasKey k)) : xs = ys := by
  have hmem : ∀ {zs ws : List α}, (∀ k : κ, zs.filter (hasKey k) = ws.filter (hasKey k)) →
      ∀ z ∈ zs, z ∈ ws := by
    intro zs ws hzw z hz
    have : z ∈ ws.filter (hasKey (Keyed.key z)) := by
      rw [← hzw]
      exact List.mem_filter.2 ⟨hz, hasKey_self z⟩
    exact (List.mem_filter.1 this).1
  induction xs generalizing ys with
  | nil =>
    cases ys with
    | nil => rfl
    | cons y ys => exact absurd (hmem (fun k => (h k).symm) y (by simp)) (by simp)
  | cons x xs ih =>
    cases ys with
    | nil => exact absurd (hmem h x (by simp)) (by simp)
    | cons y ys =>
      have hfirst : ∀ {z w : α} {zs : List α}, Ordered (z :: zs) → w ∈ z :: zs →
          notLater z w = true := by
        intro z w zs hzs hw
        rcases List.mem_cons.1 hw with rfl | hw
        · exact notLater_of_hasKey (hasKey_self w) (hasKey_self w)
        · exact (List.pairwise_cons.1 hzs).1 w hw
      -- both heads have the least key, and are the first items with it
      have hxy : compare (Keyed.key y) (Keyed.key x) = .eq :=
        OrientedCmp.isLE_antisymm (hfirst hys (hmem h x (by simp)))
          (hfirst hxs (hmem (fun k => (h k).symm) y (by simp)))
      have hkey : hasKey (Keyed.key x) y = true := by simp [hasKey, hxy]
      have hhead : x = y := by
        have := h (Keyed.key x)
        rw [List.filter_cons_of_pos (hasKey_self x), List.filter_cons_of_pos hkey] at this
        exact (List.cons.inj this).1
      subst hhead
      have htail : xs = ys := by
        refine ih hxs.of_cons hys.of_cons fun k => ?_
        have := h k
        by_cases hk : hasKey k x = true
        · rw [List.filter_cons_of_pos hk, List.filter_cons_of_pos hk] at this
          exact (List.cons.inj this).2
        · rwa [List.filter_cons_of_neg hk, List.filter_cons_of_neg hk] at this
      rw [htail]

/-- There is one stable sort. -/
theorem IsStableSort.eq [TransOrd κ] {arrived xs ys : List α} (hxs : IsStableSort arrived xs)
    (hys : IsStableSort arrived ys) : xs = ys :=
  hxs.ordered.eq_of_filter_eq hys.ordered fun k => (hxs.filter_eq k).trans (hys.filter_eq k).symm

/-- Merging sorts is stable. -/
theorem isStableSort_mergeSort [TransOrd κ] (arrived : List α) :
    IsStableSort arrived (arrived.mergeSort notLater) where
  ordered := List.pairwise_mergeSort notLater_trans notLater_total arrived
  filter_eq k := by
    -- the items with one key are in order already, so they are a sublist of the sorted items
    have hclass : (arrived.filter (hasKey k)).Pairwise fun x y => notLater x y = true := by
      refine List.pairwise_of_forall_mem_list fun x hx y hy => ?_
      exact notLater_of_hasKey (List.mem_filter.1 hx).2 (List.mem_filter.1 hy).2
    have hsub : (arrived.filter (hasKey k)).Sublist (arrived.mergeSort notLater) :=
      List.sublist_mergeSort notLater_trans notLater_total hclass List.filter_sublist
    have hfilter : (arrived.filter (hasKey k)).Sublist
        ((arrived.mergeSort notLater).filter (hasKey k)) := by
      simpa [List.filter_filter] using hsub.filter (hasKey k)
    have hlength : ((arrived.mergeSort notLater).filter (hasKey k)).length =
        (arrived.filter (hasKey k)).length :=
      ((List.mergeSort_perm arrived notLater).filter (hasKey k)).length_eq
    exact (hfilter.eq_of_length hlength.symm).symm

theorem isStableSort_iff [TransOrd κ] {arrived stored : List α} :
    IsStableSort arrived stored ↔ stored = arrived.mergeSort notLater := by
  constructor
  · intro h
    exact h.eq (isStableSort_mergeSort arrived)
  · rintro rfl
    exact isStableSort_mergeSort arrived

theorem IsStableSort.perm [TransOrd κ] {arrived stored : List α} (h : IsStableSort arrived stored) :
    stored.Perm arrived := by
  rw [isStableSort_iff.1 h]
  exact List.mergeSort_perm arrived notLater

theorem isStableSort_nil : IsStableSort ([] : List α) [] := ⟨.nil, fun _ => rfl⟩

/-! ### One edit -/

/-- Changes the item that passes a test and stands behind `n` others that pass it. -/
def modifyNth (p : α → Bool) (change : α → α) : Nat → List α → List α
  | _, [] => []
  | n, x :: xs =>
    if p x then
      match n with
      | 0 => change x :: xs
      | n + 1 => x :: modifyNth p change n xs
    else x :: modifyNth p change n xs

theorem Ordered.insert [TransOrd κ] {list : KeyedList α} (h : Ordered list.items) (x : α) :
    Ordered (list.insert x).items := by
  have hbefore : ∀ y ∈ list.items.takeWhile (notAfter x), notLater y x = true := fun y hy =>
    notLater_of_notAfter (Text.forall_mem_takeWhile _ _ y hy)
  have hbehind : ∀ y ∈ list.items.dropWhile (notAfter x), notLater x y = true := by
    intro y hy
    simp [notLater, h.lt_of_mem_dropWhile x y hy]
  refine List.pairwise_append.2 ⟨h.sublist (List.takeWhile_sublist _),
    List.pairwise_cons.2 ⟨hbehind, h.sublist (List.dropWhile_sublist _)⟩, ?_⟩
  intro y hy z hz
  rcases List.mem_cons.1 hz with rfl | hz
  · exact hbefore y hy
  · exact notLater_trans y x z (hbefore y hy) (hbehind z hz)

/-- An item goes in behind those with its key. -/
theorem Ordered.filter_insert [TransOrd κ] {list : KeyedList α} (h : Ordered list.items) (x : α)
    (k : κ) :
    (list.insert x).items.filter (hasKey k) = (list.items ++ [x]).filter (hasKey k) := by
  have hsplit : (list.items.takeWhile (notAfter x)).filter (hasKey k) ++
      (list.items.dropWhile (notAfter x)).filter (hasKey k) = list.items.filter (hasKey k) := by
    rw [← List.filter_append, List.takeWhile_append_dropWhile]
  simp only [KeyedList.insert, List.filter_append]
  by_cases hk : hasKey k x = true
  · -- behind it there are only larger keys
    have hbehind : (list.items.dropWhile (notAfter x)).filter (hasKey k) = [] :=
      List.filter_eq_nil_iff.2 fun y hy => not_hasKey_of_lt hk (h.lt_of_mem_dropWhile x y hy)
    rw [hbehind, List.append_nil] at hsplit
    rw [List.filter_cons_of_pos hk, hbehind, hsplit, List.filter_cons_of_pos hk, List.filter_nil]
  · rw [List.filter_cons_of_neg hk, hsplit, List.filter_cons_of_neg hk, List.filter_nil,
      List.append_nil]

theorem IsStableSort.insert [TransOrd κ] {arrived : List α} {list : KeyedList α}
    (h : IsStableSort arrived list.items) (x : α) :
    IsStableSort (arrived ++ [x]) (list.insert x).items where
  ordered := h.ordered.insert x
  filter_eq k := by
    rw [h.ordered.filter_insert x k, List.filter_append, List.filter_append, h.filter_eq k]

theorem IsStableSort.insertAll [TransOrd κ] {arrived : List α} {list : KeyedList α}
    (h : IsStableSort arrived list.items) (xs : List α) :
    IsStableSort (arrived ++ xs) (list.insertAll xs).items := by
  induction xs generalizing arrived list with
  | nil => rwa [List.append_nil]
  | cons x xs ih =>
    rw [List.append_cons]
    exact ih (h.insert x)

theorem isStableSort_ofList [TransOrd κ] (xs : List α) : IsStableSort xs (ofList xs).items := by
  have hempty : IsStableSort [] (empty : KeyedList α).items := isStableSort_nil
  exact hempty.insertAll xs

/-- Where the keys differ, what has one key does not have the other. -/
theorem hasKey_ne [TransOrd κ] {k l : κ} (h : compare k l ≠ .eq) {x : α} (hx : hasKey k x = true) :
    hasKey l x = false := by
  refine Bool.eq_false_iff.2 fun hl => h ?_
  have hxk : compare (Keyed.key x) k = .eq := by simpa [hasKey] using hx
  have hxl : compare (Keyed.key x) l = .eq := by simpa [hasKey] using hl
  exact TransCmp.eq_trans (OrientedCmp.eq_symm hxk) hxl

/-- The first item that passes a test is the first of those that pass it. -/
theorem filter_eraseP_self (p : α → Bool) (xs : List α) :
    (xs.eraseP p).filter p = (xs.filter p).tail := by
  induction xs with
  | nil => rfl
  | cons x xs ih => cases hx : p x <;> simp [hx, ih]

theorem filter_eraseP_of_disjoint {p q : α → Bool} (h : ∀ x, p x = true → q x = false)
    (xs : List α) : (xs.eraseP p).filter q = xs.filter q := by
  induction xs with
  | nil => rfl
  | cons x xs ih =>
    cases hx : p x with
    | true => simp [hx, h x hx]
    | false => simp [hx, List.filter_cons, ih]

/-- The oldest item with a key goes out. -/
theorem IsStableSort.erase [TransOrd κ] {arrived : List α} {list : KeyedList α}
    (h : IsStableSort arrived list.items) (k : κ) :
    IsStableSort (arrived.eraseP (hasKey k)) (list.erase k).items where
  ordered := h.ordered.sublist List.eraseP_sublist
  filter_eq l := by
    rw [KeyedList.erase]
    by_cases hkl : compare k l = .eq
    · rw [← hasKey_congr hkl, filter_eraseP_self, filter_eraseP_self, h.filter_eq k]
    · rw [filter_eraseP_of_disjoint fun _ => hasKey_ne hkl,
        filter_eraseP_of_disjoint fun _ => hasKey_ne hkl, h.filter_eq l]

theorem filter_modifyNth_self {p : α → Bool} {change : α → α} (h : ∀ x, p (change x) = p x)
    (n : Nat) (xs : List α) :
    (modifyNth p change n xs).filter p = (xs.filter p).modify n change := by
  induction xs generalizing n with
  | nil => simp [modifyNth]
  | cons x xs ih =>
    by_cases hx : p x = true
    · cases n with
      | zero => simp [modifyNth, hx, h]
      | succ n => simp [modifyNth, hx, ih]
    · simp [modifyNth, hx, ih]

theorem filter_modifyNth_of_disjoint {p q : α → Bool} {change : α → α}
    (hq : ∀ x, q (change x) = q x) (h : ∀ x, p x = true → q x = false) (n : Nat) (xs : List α) :
    (modifyNth p change n xs).filter q = xs.filter q := by
  induction xs generalizing n with
  | nil => simp [modifyNth]
  | cons x xs ih =>
    by_cases hx : p x = true
    · cases n with
      | zero => simp [modifyNth, hx, hq, h x hx]
      | succ n => simp [modifyNth, hx, List.filter_cons, ih]
    · simp [modifyNth, hx, List.filter_cons, ih]

omit [Ord κ] in
/-- A change that keeps the keys does not move anything. -/
theorem map_key_modifyNth {p : α → Bool} {change : α → α}
    (h : ∀ x, Keyed.key (change x) = Keyed.key x) (n : Nat) (xs : List α) :
    (modifyNth p change n xs).map Keyed.key = xs.map Keyed.key := by
  induction xs generalizing n with
  | nil => simp [modifyNth]
  | cons x xs ih =>
    by_cases hx : p x = true
    · cases n with
      | zero => simp [modifyNth, hx, h]
      | succ n => simp [modifyNth, hx, ih]
    · simp [modifyNth, hx, ih]

theorem IsStableSort.modifyNth [TransOrd κ] {arrived stored : List α}
    (h : IsStableSort arrived stored) (k : κ) (n : Nat) {change : α → α}
    (hchange : ∀ x, Keyed.key (change x) = Keyed.key x) :
    IsStableSort (modifyNth (hasKey k) change n arrived)
      (KeyedList.modifyNth (hasKey k) change n stored) where
  ordered := by
    rw [ordered_iff_keys, map_key_modifyNth hchange]
    exact ordered_iff_keys.1 h.ordered
  filter_eq l := by
    have hkeeps : ∀ l x, hasKey l (change x) = hasKey l x := by
      intro l x
      rw [hasKey, hasKey, hchange]
    by_cases hkl : compare k l = .eq
    · rw [← hasKey_congr hkl, filter_modifyNth_self (hkeeps k), filter_modifyNth_self (hkeeps k),
        h.filter_eq k]
    · rw [filter_modifyNth_of_disjoint (hkeeps l) fun _ => hasKey_ne hkl,
        filter_modifyNth_of_disjoint (hkeeps l) fun _ => hasKey_ne hkl, h.filter_eq l]

/-- Moves an item past the items with larger keys.  These come in the opposite order: the item starts
behind the last one. -/
def settle (x : α) : List α → List α
  | [] => [x]
  | y :: ys => if compare (Keyed.key x) (Keyed.key y) = .lt then y :: settle x ys else x :: y :: ys

theorem settle_append {x : α} {ys : List α}
    (h : ∀ y ∈ ys, compare (Keyed.key x) (Keyed.key y) = .lt) (zs : List α) :
    settle x (ys ++ zs) = ys ++ settle x zs := by
  induction ys with
  | nil => rfl
  | cons y ys ih =>
    have hy : compare (Keyed.key x) (Keyed.key y) = .lt := h y (by simp)
    rw [List.cons_append, settle, if_pos hy, ih fun z hz => h z (List.mem_cons_of_mem _ hz)]
    rfl

theorem settle_of_notAfter {x : α} {ys : List α} (h : ∀ y ∈ ys, notAfter x y = true) :
    settle x ys = x :: ys := by
  cases ys with
  | nil => rfl
  | cons y ys =>
    have hy : compare (Keyed.key x) (Keyed.key y) ≠ .lt := by simpa [notAfter] using h y (by simp)
    rw [settle, if_neg hy]

/-- In a list in order, an item that moves from the end to the front stops where it goes in. -/
theorem Ordered.reverse_settle [TransOrd κ] {list : KeyedList α} (h : Ordered list.items) (x : α) :
    (settle x list.items.reverse).reverse = (list.insert x).items := by
  have hbehind : ∀ y ∈ (list.items.dropWhile (notAfter x)).reverse,
      compare (Keyed.key x) (Keyed.key y) = .lt := fun y hy =>
    h.lt_of_mem_dropWhile x y (List.mem_reverse.1 hy)
  have hbefore : ∀ y ∈ (list.items.takeWhile (notAfter x)).reverse, notAfter x y = true :=
    fun y hy => Text.forall_mem_takeWhile _ _ y (List.mem_reverse.1 hy)
  have hsplit : list.items.reverse = (list.items.dropWhile (notAfter x)).reverse ++
      (list.items.takeWhile (notAfter x)).reverse := by
    rw [← List.reverse_append, List.takeWhile_append_dropWhile]
  rw [hsplit, settle_append hbehind, settle_of_notAfter hbefore, List.reverse_append,
    List.reverse_cons, List.reverse_reverse, List.reverse_reverse, KeyedList.insert,
    List.append_assoc, List.singleton_append]

/-! ### Look-ups -/

/-- What a look-up for a key gives: an item with the key if there is one. -/
structure IsFound (arrived : List α) (k : κ) (result : Option α) : Prop where
  mem : ∀ x ∈ result, x ∈ arrived ∧ hasKey k x = true
  isSome_iff : result.isSome = true ↔ ∃ x ∈ arrived, hasKey k x = true

/-- The only item with a key is what is found. -/
theorem IsFound.eq_some {arrived : List α} {k : κ} {result : Option α} (h : IsFound arrived k result)
    {x : α} (hx : arrived.filter (hasKey k) = [x]) : result = some x := by
  have hclass : ∀ y ∈ arrived, hasKey k y = true → y = x := by
    intro y hy hk
    have : y ∈ [x] := hx ▸ List.mem_filter.2 ⟨hy, hk⟩
    exact List.mem_singleton.1 this
  have hsome : result.isSome = true := by
    have : x ∈ arrived.filter (hasKey k) := by simp [hx]
    exact h.isSome_iff.2 ⟨x, (List.mem_filter.1 this).1, (List.mem_filter.1 this).2⟩
  obtain ⟨y, rfl⟩ := Option.isSome_iff_exists.1 hsome
  rw [hclass y (h.mem y rfl).1 (h.mem y rfl).2]

theorem IsFound.perm {xs ys : List α} {k : κ} {result : Option α} (h : IsFound xs k result)
    (hp : xs.Perm ys) : IsFound ys k result where
  mem x hx := ⟨hp.mem_iff.1 (h.mem x hx).1, (h.mem x hx).2⟩
  isSome_iff := h.isSome_iff.trans (exists_congr fun _ => and_congr_left fun _ => hp.mem_iff)

theorem isFound_find? (list : KeyedList α) (k : κ) : IsFound list.items k (list.find? k) where
  mem x hx := ⟨List.mem_of_find?_eq_some hx, List.find?_some hx⟩
  isSome_iff := by simp [find?, List.find?_isSome]

/-- The first item that passes a test is determined by the items that pass it. -/
theorem IsStableSort.find?_eq {arrived stored : List α} (h : IsStableSort arrived stored) (k : κ) :
    stored.find? (hasKey k) = arrived.find? (hasKey k) := by
  rw [← List.head?_filter, h.filter_eq k, List.head?_filter]

/-- The place that is left when a window of `size` places from `base` on is halved again and again.
The window keeps its upper half unless that begins behind the key. -/
def halve (xs : List α) (k : κ) (base size : Nat) : Nat :=
  if size ≤ 1 then base
  else
    let middle := base + size / 2
    let behind := xs[middle]?.any fun x => compare (Keyed.key x) k = .gt
    halve xs k (if behind then base else middle) (size - size / 2)
termination_by size

/-- The place of an item with a key in a list in order, found by halving. -/
def place? (list : KeyedList α) (k : κ) : Option Nat :=
  let i := halve list.items k 0 list.size
  if list.items[i]?.any (hasKey k) then some i else none

/-- The window of a search: items in front of it may have the key only if its first one has it, and all
items behind it have larger keys. -/
structure IsWindow (xs : List α) (k : κ) (base size : Nat) : Prop where
  pos : 0 < size
  le_length : base + size ≤ xs.length
  first : base = 0 ∨ ∃ x, xs[base]? = some x ∧ (compare (Keyed.key x) k).isLE = true
  behind : ∀ i x, base + size ≤ i → xs[i]? = some x → compare (Keyed.key x) k = .gt

/-- In a list in order, what stands behind a larger key has a larger key. -/
theorem Ordered.gt_of_le [TransOrd κ] {xs : List α} (h : Ordered xs) {k : κ} {i j : Nat} {x y : α}
    (hx : xs[i]? = some x) (hgt : compare (Keyed.key x) k = .gt) (hij : i ≤ j)
    (hy : xs[j]? = some y) : compare (Keyed.key y) k = .gt := by
  obtain ⟨hi, rfl⟩ := List.getElem?_eq_some_iff.1 hx
  obtain ⟨hj, rfl⟩ := List.getElem?_eq_some_iff.1 hy
  rcases Nat.lt_or_eq_of_le hij with hlt | rfl
  · have hle : (compare (Keyed.key xs[i]) (Keyed.key xs[j])).isLE = true :=
      List.pairwise_iff_getElem.1 h i j hi hj hlt
    exact OrientedCmp.gt_iff_lt.2 (TransCmp.lt_of_lt_of_isLE (OrientedCmp.gt_iff_lt.1 hgt) hle)
  · exact hgt

/-- Halving keeps a window, and ends with one of a single place. -/
theorem isWindow_halve [TransOrd κ] {xs : List α} (h : Ordered xs) (k : κ) (base size : Nat)
    (hwindow : IsWindow xs k base size) : IsWindow xs k (halve xs k base size) 1 := by
  fun_induction halve xs k base size with
  | case1 base size hsize =>
    obtain rfl : size = 1 := by have := hwindow.pos; omega
    exact hwindow
  | case2 base size hsize middle behind ih =>
    have hle := hwindow.le_length
    have hmiddle : middle < xs.length := by omega
    have hget : xs[middle]? = some xs[middle] := List.getElem?_eq_getElem hmiddle
    refine ih ?_
    by_cases hbehind : behind = true
    · have hgt : compare (Keyed.key xs[middle]) k = .gt := by simpa [behind, hget] using hbehind
      rw [dif_pos hbehind]
      refine ⟨by omega, by omega, hwindow.first, fun i x hi hx => ?_⟩
      exact h.gt_of_le hget hgt (by omega) hx
    · have hnot : compare (Keyed.key xs[middle]) k ≠ .gt := by simpa [behind, hget] using hbehind
      rw [dif_neg hbehind]
      refine ⟨by omega, by omega, Or.inr ⟨_, hget, ?_⟩, fun i x hi hx => ?_⟩
      · cases hc : compare (Keyed.key xs[middle]) k with
        | lt => rfl
        | eq => rfl
        | gt => exact absurd hc hnot
      · exact hwindow.behind i x (by omega) hx

/-- What halving finds has the key. -/
theorem hasKey_of_place? {list : KeyedList α} {k : κ} {i : Nat} (h : list.place? k = some i) :
    ∃ x, list.items[i]? = some x ∧ hasKey k x = true := by
  simp only [place?] at h
  split at h
  · rename_i hany
    obtain rfl := Option.some.inj h
    exact (Option.any_eq_true _ _).1 hany
  · cases h

/-- In a list in order, a window of one place holds the key if any item has it. -/
theorem IsWindow.hasKey_of_mem [TransOrd κ] {xs : List α} {k : κ} {i : Nat} (h : IsWindow xs k i 1)
    (hxs : Ordered xs) {y : α} (hy : y ∈ xs) (hk : hasKey k y = true) :
    ∃ x, xs[i]? = some x ∧ hasKey k x = true := by
  obtain ⟨j, hj⟩ := List.getElem?_of_mem hy
  have heq : compare (Keyed.key y) k = .eq := by simpa [hasKey] using hk
  have hji : j ≤ i := by
    by_contra hlt
    have hgt := h.behind j y (by omega) hj
    rw [heq] at hgt
    cases hgt
  rcases h.first with rfl | ⟨x, hx, hle⟩
  · obtain rfl : j = 0 := by omega
    exact ⟨y, hj, hk⟩
  · refine ⟨x, hx, ?_⟩
    rcases Nat.lt_or_eq_of_le hji with hlt | rfl
    · obtain ⟨hj', rfl⟩ := List.getElem?_eq_some_iff.1 hj
      obtain ⟨hi', rfl⟩ := List.getElem?_eq_some_iff.1 hx
      -- the key is not below the one of an item in front
      have hyx : (compare (Keyed.key xs[j]) (Keyed.key xs[i])).isLE = true :=
        List.pairwise_iff_getElem.1 hxs j i hj' hi' hlt
      have hkx : (compare k (Keyed.key xs[i])).isLE = true := by
        rwa [← TransCmp.congr_left heq]
      simpa [hasKey] using OrientedCmp.isLE_antisymm hle hkx
    · rw [hj] at hx
      obtain rfl := Option.some.inj hx
      exact hk

/-- Halving finds a place of the key if there is one. -/
theorem isSome_place?_iff [TransOrd κ] {list : KeyedList α} (h : Ordered list.items) (k : κ) :
    (list.place? k).isSome = true ↔ ∃ x ∈ list.items, hasKey k x = true := by
  constructor
  · intro hsome
    obtain ⟨i, hi⟩ := Option.isSome_iff_exists.1 hsome
    obtain ⟨x, hx, hk⟩ := hasKey_of_place? hi
    exact ⟨x, List.mem_of_getElem? hx, hk⟩
  · rintro ⟨y, hy, hk⟩
    have hwindow : IsWindow list.items k 0 list.size :=
      ⟨List.length_pos_of_mem hy, Nat.le_of_eq (Nat.zero_add _), Or.inl rfl, fun i x hi hx => by
        rw [List.getElem?_eq_none (by simpa [size] using hi)] at hx
        cases hx⟩
    obtain ⟨x, hx, hkx⟩ := (isWindow_halve h k 0 list.size hwindow).hasKey_of_mem h hy hk
    simp [place?, hx, hkx]

/-- A look-up by halving. -/
def search? (list : KeyedList α) (k : κ) : Option α := (list.place? k).bind (list.items[·]?)

/-- A change of the item that halving finds. -/
def updateFound (list : KeyedList α) (k : κ) (change : α → α) : KeyedList α :=
  match list.place? k with
  | some i => { list with items := list.items.modify i change }
  | none => list

/-- A change of the item with a key that stands behind `older` others with it. -/
def updateNth (list : KeyedList α) (k : κ) (older : Nat) (change : α → α) : KeyedList α :=
  { list with items := modifyNth (hasKey k) change older list.items }

theorem isFound_search? [TransOrd κ] {list : KeyedList α} (h : Ordered list.items) (k : κ) :
    IsFound list.items k (list.search? k) where
  mem x hx := by
    obtain ⟨i, hi, hget⟩ := Option.bind_eq_some_iff.1 hx
    obtain ⟨y, hy, hk⟩ := hasKey_of_place? hi
    rw [hget] at hy
    obtain rfl := Option.some.inj hy
    exact ⟨List.mem_of_getElem? hget, hk⟩
  isSome_iff := by
    rw [← isSome_place?_iff h]
    constructor
    · intro hsome
      obtain ⟨x, hx⟩ := Option.isSome_iff_exists.1 hsome
      obtain ⟨i, hi, -⟩ := Option.bind_eq_some_iff.1 hx
      rw [hi]
      rfl
    · intro hsome
      obtain ⟨i, hi⟩ := Option.isSome_iff_exists.1 hsome
      obtain ⟨x, hx, -⟩ := hasKey_of_place? hi
      rw [search?, hi, Option.bind_some, hx]
      rfl

/-- The first of the items that pass a test is the one that no other stands in front of. -/
theorem modifyNth_zero (p : α → Bool) (change : α → α) (xs : List α) :
    modifyNth p change 0 xs =
      xs.takeWhile (!p ·) ++ (xs.dropWhile (!p ·)).modifyHead change := by
  induction xs with
  | nil => simp [modifyNth]
  | cons x xs ih => cases hx : p x <;> simp [modifyNth, hx, ih]

theorem updateNth_zero (list : KeyedList α) (k : κ) (change : α → α) :
    list.updateNth k 0 change = list.update k change := by
  rw [updateNth, modifyNth_zero, update]

/-- A place is the one of some item that passes the test, counted from the front. -/
theorem modify_eq_modifyNth {p : α → Bool} (change : α → α) {xs : List α} {i : Nat} {x : α}
    (hx : xs[i]? = some x) (hp : p x = true) :
    xs.modify i change = modifyNth p change ((xs.take i).countP p) xs := by
  induction xs generalizing i with
  | nil => cases hx
  | cons y ys ih =>
    cases i with
    | zero =>
      obtain rfl := Option.some.inj hx
      simp [modifyNth, hp]
    | succ i =>
      have htail := ih hx
      by_cases hy : p y = true
      · simp [modifyNth, hy, htail]
      · simp [modifyNth, hy, htail]

theorem modifyNth_of_forall_not {p : α → Bool} (change : α → α) (n : Nat) {xs : List α}
    (h : ∀ x ∈ xs, p x = false) : modifyNth p change n xs = xs := by
  induction xs with
  | nil => simp [modifyNth]
  | cons x xs ih =>
    simp [modifyNth, h x (by simp), ih fun y hy => h y (List.mem_cons_of_mem _ hy)]

/-- Whichever of several items with one key halving finds, it changes one of them. -/
theorem exists_updateFound_eq [TransOrd κ] {list : KeyedList α} (h : Ordered list.items) (k : κ)
    (change : α → α) : ∃ older, list.updateFound k change = list.updateNth k older change := by
  unfold updateFound updateNth
  split
  · rename_i i hi
    obtain ⟨x, hx, hk⟩ := hasKey_of_place? hi
    exact ⟨_, by rw [modify_eq_modifyNth change hx hk]⟩
  · rename_i hnone
    have hnot : ¬∃ x ∈ list.items, hasKey k x = true := by
      rw [← isSome_place?_iff h, hnone]
      exact Bool.false_ne_true
    refine ⟨0, ?_⟩
    rw [modifyNth_of_forall_not change 0 fun x hx =>
      Bool.eq_false_iff.2 fun hk => hnot ⟨x, hx, hk⟩]

/-! ### Any sequence of edits -/

/-- An edit of a keyed list.  To extend a list is to put in several items. -/
inductive Edit (α : Type) {κ : Type} [Keyed α κ] where
  | insert (x : α)
  | insertAll (xs : List α)
  | remove (k : κ)
  | clear
  /-- A change, which keeps the key, of the item that stands behind `older` others with the key. -/
  | update (k : κ) (older : Nat) (change : α → α) (keeps : ∀ x, Keyed.key (change x) = Keyed.key x)

/-- A keyed list beside what it should hold: the items that arrived and were not removed, in the order in
which they came.  Insertions and successful removals are counted from the last time it was cleared. -/
structure History (α : Type) where
  list : KeyedList α
  arrived : List α
  inserted : Nat
  removed : Nat

namespace History

/-- A list of some capacity, before the first edit; the default one makes it the empty list. -/
def start (capacity : Nat) : History α := ⟨withCapacity capacity, [], 0, 0⟩

/-- The history after an edit. -/
def step (h : History α) : Edit α → History α
  | .insert x =>
    { h with list := h.list.insert x, arrived := h.arrived ++ [x], inserted := h.inserted + 1 }
  | .insertAll xs =>
    { h with
      list := h.list.insertAll xs
      arrived := h.arrived ++ xs
      inserted := h.inserted + xs.length }
  | .remove k =>
    { h with
      list := (h.list.remove k).2
      arrived := h.arrived.eraseP (hasKey k)
      removed := h.removed + (h.list.remove k).1.toList.length }
  | .clear => ⟨h.list.clear, [], 0, 0⟩
  | .update k older change _ =>
    { h with
      list := h.list.updateNth k older change
      arrived := modifyNth (hasKey k) change older h.arrived }

/-- The history of a list that is made with some capacity and then edited. -/
def run (capacity : Nat) (edits : List (Edit α)) : History α := edits.foldl step (start capacity)

/-- The list is the stable sort of what arrived, and the counts say how much that is. -/
structure Sound (h : History α) : Prop where
  stable : IsStableSort h.arrived h.list.items
  count : h.arrived.length + h.removed = h.inserted

theorem sound_start (capacity : Nat) : (start capacity : History α).Sound := ⟨isStableSort_nil, rfl⟩

/-- An item that is found goes out. -/
theorem length_eraseP_add (p : α → Bool) (xs : List α) :
    (xs.eraseP p).length + (xs.find? p).toList.length = xs.length := by
  induction xs with
  | nil => rfl
  | cons x xs ih =>
    cases hx : p x with
    | true => simp [hx]
    | false =>
      simp only [List.eraseP_cons, hx, cond_false, List.find?_cons, List.length_cons]
      omega

theorem Sound.step [TransOrd κ] {h : History α} (hsound : h.Sound) (edit : Edit α) :
    (h.step edit).Sound := by
  obtain ⟨hstable, hcount⟩ := hsound
  cases edit with
  | insert x =>
    refine ⟨hstable.insert x, ?_⟩
    simp only [History.step, List.length_append, List.length_singleton]
    omega
  | insertAll xs =>
    refine ⟨hstable.insertAll xs, ?_⟩
    simp only [History.step, List.length_append]
    omega
  | remove k =>
    refine ⟨hstable.erase k, ?_⟩
    have hfound : (h.list.remove k).1 = h.arrived.find? (hasKey k) := hstable.find?_eq k
    have hlength := length_eraseP_add (hasKey k) h.arrived
    simp only [History.step, hfound]
    omega
  | clear => exact ⟨isStableSort_nil, rfl⟩
  | update k older change keeps =>
    refine ⟨hstable.modifyNth k older keeps, ?_⟩
    have hlength := congrArg List.length
      (map_key_modifyNth (p := hasKey k) keeps older h.arrived)
    rw [List.length_map, List.length_map] at hlength
    simp only [History.step, hlength]
    exact hcount

theorem sound_run [TransOrd κ] (capacity : Nat) (edits : List (Edit α)) :
    (run capacity edits).Sound := by
  have hfoldl : ∀ h : History α, h.Sound → (edits.foldl History.step h).Sound := by
    induction edits with
    | nil => exact fun _ h => h
    | cons edit edits ih => exact fun h hsound => ih _ (hsound.step edit)
  exact hfoldl _ (sound_start capacity)

/-- The list of a history is a sorted multimap, first in, first out for each key. -/
structure IsMultimap (h : History α) : Prop where
  /-- It is the stable sort of what arrived and was not removed. -/
  items_eq : h.list.items = h.arrived.mergeSort notLater
  /-- Items with one key stand in the order in which they came. -/
  filter_eq : ∀ k : κ, h.list.items.filter (hasKey k) = h.arrived.filter (hasKey k)
  keys : h.list.keys.Pairwise fun k l => (compare k l).isLE = true
  count : h.list.size + h.removed = h.inserted
  /-- An item that comes moves from the end to its place. -/
  insert_eq : ∀ x, (h.list.insert x).items = (settle x h.list.items.reverse).reverse
  /-- What is removed for a key is the oldest item with it, and nothing where there is none. -/
  removed_eq : ∀ k, (h.list.remove k).1 = h.arrived.find? (hasKey k)
  rest_eq : ∀ k, (h.list.remove k).2.items = (h.arrived.eraseP (hasKey k)).mergeSort notLater
  remove_absent : ∀ k, (∀ x ∈ h.arrived, hasKey k x = false) → h.list.remove k = (none, h.list)
  contains_iff : ∀ k, h.list.contains k = true ↔ ∃ x ∈ h.arrived, hasKey k x = true
  /-- A look-up finds an item with the key if there is one, from the front and by halving. -/
  found : ∀ k, IsFound h.arrived k (h.list.find? k) ∧ IsFound h.arrived k (h.list.search? k)
  found_unique : ∀ k x, h.arrived.filter (hasKey k) = [x] →
    h.list.find? k = some x ∧ h.list.search? k = some x
  /-- A change through either look-up is a change of one of the items with the key. -/
  update_eq : ∀ k change, h.list.update k change = h.list.updateNth k 0 change ∧
    ∃ older, h.list.updateFound k change = h.list.updateNth k older change

end History

/-- Whatever happens to a list, it is a sorted multimap, first in, first out for each key. -/
theorem isMultimap_run [TransOrd κ] (capacity : Nat) (edits : List (Edit α)) :
    (History.run capacity edits).IsMultimap := by
  obtain ⟨hstable, hcount⟩ := History.sound_run capacity edits
  generalize History.run capacity edits = h at hstable hcount
  have hfound : ∀ k, IsFound h.arrived k (h.list.find? k) ∧ IsFound h.arrived k (h.list.search? k) :=
    fun k => ⟨(isFound_find? h.list k).perm hstable.perm,
      (isFound_search? hstable.ordered k).perm hstable.perm⟩
  refine
    { items_eq := isStableSort_iff.1 hstable
      filter_eq := hstable.filter_eq
      keys := ordered_iff_keys.1 hstable.ordered
      count := ?_
      insert_eq := fun x => (hstable.ordered.reverse_settle x).symm
      removed_eq := hstable.find?_eq
      rest_eq := fun k => isStableSort_iff.1 (hstable.erase k)
      remove_absent := fun k hk => ?_
      contains_iff := fun k => ?_
      found := hfound
      found_unique := fun k x hx => ⟨(hfound k).1.eq_some hx, (hfound k).2.eq_some hx⟩
      update_eq := fun k change =>
        ⟨(updateNth_zero h.list k change).symm, exists_updateFound_eq hstable.ordered k change⟩ }
  · have hsize : h.list.size = h.arrived.length := hstable.perm.length_eq
    rw [hsize, hcount]
  · have hstored : ∀ x ∈ h.list.items, ¬hasKey k x = true := by
      intro x hx
      rw [hk x (hstable.perm.mem_iff.1 hx)]
      exact Bool.false_ne_true
    have hnone : h.list.find? k = none := List.find?_eq_none.2 hstored
    rw [KeyedList.remove, hnone, KeyedList.erase, List.eraseP_of_forall_not hstored]
  · rw [KeyedList.contains, List.any_eq_true]
    exact exists_congr fun _ => and_congr_left fun _ => hstable.perm.mem_iff

theorem isMultimap_run_sample :
    (History.run 2 [.insertAll [(⟨"b", 1⟩ : Binding Nat), ⟨"a", 2⟩, ⟨"b", 3⟩],
      .remove "b"]).IsMultimap ∧
      (History.run 2 [.insertAll [(⟨"b", 1⟩ : Binding Nat), ⟨"a", 2⟩, ⟨"b", 3⟩],
        .remove "b"]).list.items.map Binding.native = [2, 3] :=
  ⟨isMultimap_run 2 _, by with_unfolding_all rfl⟩

end TreeScript.KeyedList
