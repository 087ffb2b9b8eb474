import Mathlib
import TreeScript.Proofs.Trees

/-!
# The room of a keyed list

A keyed list doubles its room when an item comes and the room is full, and keeps it otherwise.  So the room
follows the largest size that the list has had: it is the least doubling of the first room in which that many
items fit.  Items that go out leave it as it is.

An item that is replaced goes out before the new one comes in.  So the children of a node that was read have
never been more than they are in the end, and their room follows from their number, whatever keys came twice.

- `IsLeastDoubling`: the least doubling of a number that is not below another one.
- `IsLeastDoubling.eq_iff`: when two numbers have the same one.
- `isLeastDoubling_powerOfTwoFrom`: the room of a new list.
- `IsLeastDoubling.grow`, `IsLeastDoubling.step`: one item, and one edit.
- `History.peak`, `isLeastDoubling_run`, `room_followsPeak`: any sequence of edits.
- `Node.HasLeastRoom`, `Node.hasLeastRoom_composite`: the children of a composite node.
-/

namespace TreeScript.KeyedList

open Std

/-! ### Doublings -/

/-- The least number of the form `p · 2 ^ k` that is not below `n`. -/
structure IsLeastDoubling (p n room : Nat) : Prop where
  isDoubling : ∃ k, room = p * 2 ^ k
  enough : n ≤ room
  least : ∀ k, n ≤ p * 2 ^ k → room ≤ p * 2 ^ k

variable {p n size room : Nat}

/-- A doubling holds the room exactly if it holds the number itself. -/
theorem IsLeastDoubling.le_iff (h : IsLeastDoubling p n room) (k : Nat) :
    room ≤ p * 2 ^ k ↔ n ≤ p * 2 ^ k :=
  ⟨Nat.le_trans h.enough, h.least k⟩

/-- Two numbers have one least doubling exactly if no doubling separates them. -/
theorem IsLeastDoubling.eq_iff {m other : Nat} (h : IsLeastDoubling p n room)
    (hother : IsLeastDoubling p m other) : room = other ↔ ∀ k, n ≤ p * 2 ^ k ↔ m ≤ p * 2 ^ k := by
  constructor
  · rintro rfl k
    rw [← h.le_iff, hother.le_iff]
  · intro hsame
    obtain ⟨k, rfl⟩ := h.isDoubling
    obtain ⟨l, rfl⟩ := hother.isDoubling
    have hle : p * 2 ^ k ≤ p * 2 ^ l := (h.le_iff l).2 ((hsame l).2 hother.enough)
    exact Nat.le_antisymm hle ((hother.le_iff k).2 ((hsame k).1 h.enough))

theorem IsLeastDoubling.eq_self_iff (h : IsLeastDoubling p n room) : room = p ↔ n ≤ p := by
  constructor
  · rintro rfl
    exact h.enough
  · intro hn
    obtain ⟨k, rfl⟩ := h.isDoubling
    have hle : p * 2 ^ k ≤ p * 2 ^ 0 := h.least 0 (by rwa [Nat.pow_zero, Nat.mul_one])
    rw [Nat.pow_zero, Nat.mul_one] at hle
    exact Nat.le_antisymm hle (Nat.le_mul_of_pos_right p (Nat.two_pow_pos k))

/-- The number itself is its own least doubling as long as nothing larger is asked for. -/
theorem isLeastDoubling_self (h : n ≤ p) : IsLeastDoubling p n p where
  isDoubling := ⟨0, by rw [Nat.pow_zero, Nat.mul_one]⟩
  enough := h
  least k _ := Nat.le_mul_of_pos_right p (Nat.two_pow_pos k)

/-- What still fits asks for no other room. -/
theorem IsLeastDoubling.of_le {m : Nat} (h : IsLeastDoubling p n room) (hnm : n ≤ m) (hm : m ≤ room) :
    IsLeastDoubling p m room :=
  ⟨h.isDoubling, hm, fun k hk => h.least k (Nat.le_trans hnm hk)⟩

/-- A size that was reached before changes nothing. -/
theorem IsLeastDoubling.keep (h : IsLeastDoubling p n room) (hsize : size ≤ n) :
    IsLeastDoubling p (max n size) room := by
  rwa [Nat.max_eq_left hsize]

/-- One item more than the room holds asks for twice the room. -/
theorem IsLeastDoubling.double (hp : 0 < p) (h : IsLeastDoubling p n room) :
    IsLeastDoubling p (room + 1) (2 * room) := by
  obtain ⟨k, rfl⟩ := h.isDoubling
  have hpos : 0 < p * 2 ^ k := Nat.mul_pos hp (Nat.two_pow_pos k)
  have hdouble : 2 * (p * 2 ^ k) = p * 2 ^ (k + 1) := by
    rw [Nat.pow_succ, Nat.mul_left_comm, Nat.mul_comm 2]
  refine ⟨⟨k + 1, hdouble⟩, by omega, fun l hl => ?_⟩
  -- a larger doubling has a larger exponent
  have hexponent : k < l := by
    by_contra hle
    have := Nat.mul_le_mul_left p (Nat.pow_le_pow_right Nat.two_pos (Nat.not_lt.1 hle))
    omega
  rw [hdouble]
  exact Nat.mul_le_mul_left p (Nat.pow_le_pow_right Nat.two_pos hexponent)

/-- When an item comes, the room that followed the largest size so far follows it again. -/
theorem IsLeastDoubling.grow (hp : 0 < p) (h : IsLeastDoubling p n room) (hsize : size ≤ n) :
    IsLeastDoubling p (max n (size + 1)) (if size < room then room else 2 * room) := by
  have hle := h.enough
  by_cases hroom : size < room
  · rw [if_pos hroom]
    exact h.of_le (Nat.le_max_left _ _) (Nat.max_le.2 ⟨hle, hroom⟩)
  · obtain rfl : size = room := by omega
    obtain rfl : size = n := by omega
    rw [if_neg hroom, Nat.max_eq_right (Nat.le_succ size)]
    exact h.double hp

/-- A new list has the least power of two that is enough. -/
theorem isLeastDoubling_powerOfTwoFrom (capacity : Nat) :
    IsLeastDoubling 1 (max capacity 1) (powerOfTwoFrom capacity) := by
  unfold powerOfTwoFrom
  split
  · next hsmall =>
    exact isLeastDoubling_self (Nat.max_le.2 ⟨hsmall, Nat.le_refl 1⟩)
  · next hlarge =>
    have hpred : capacity - 1 < 2 ^ ((capacity - 1).log2 + 1) := Nat.lt_log2_self
    have hpow : Nat.pow 2 ((capacity - 1).log2 + 1) = 2 ^ ((capacity - 1).log2 + 1) := rfl
    refine ⟨⟨_, (Nat.one_mul _).symm⟩, by omega, fun k hk => ?_⟩
    have hlog : (capacity - 1).log2 < k := (Nat.log2_lt (by omega)).2 (by omega)
    rw [Nat.one_mul, hpow]
    exact Nat.pow_le_pow_right Nat.two_pos hlog

theorem powerOfTwoFrom_pos (capacity : Nat) : 0 < powerOfTwoFrom capacity := by
  have := (isLeastDoubling_powerOfTwoFrom capacity).enough
  omega

/-- A power of two in which a list starts, and in which all that it holds finds room, is enough. -/
theorem IsLeastDoubling.le_two_pow {capacity j : Nat}
    (h : IsLeastDoubling (powerOfTwoFrom capacity) n room) (hcapacity : capacity ≤ 2 ^ j)
    (hn : n ≤ 2 ^ j) : room ≤ 2 ^ j := by
  have hfirst := isLeastDoubling_powerOfTwoFrom capacity
  obtain ⟨i, hi⟩ := hfirst.isDoubling
  rw [Nat.one_mul] at hi
  have hle : 2 ^ i ≤ 2 ^ j := by
    have := hfirst.least j (by have := Nat.two_pow_pos j; omega)
    rwa [hi, Nat.one_mul] at this
  have hexponent : i ≤ j := (Nat.pow_le_pow_iff_right (by decide)).1 hle
  have hdoubling : powerOfTwoFrom capacity * 2 ^ (j - i) = 2 ^ j := by
    rw [hi, ← Nat.pow_add, Nat.add_sub_cancel' hexponent]
  rw [← hdoubling]
  exact h.least (j - i) (by rwa [hdoubling])

/-! ### One edit -/

variable {α κ : Type} [Keyed α κ] [Ord κ]

theorem size_insert (list : KeyedList α) (x : α) : (list.insert x).size = list.size + 1 :=
  (perm_insert list x).length_eq

theorem IsLeastDoubling.insert (hp : 0 < p) {list : KeyedList α} (h : IsLeastDoubling p n list.capacity)
    (hsize : list.size ≤ n) (x : α) :
    IsLeastDoubling p (max n (list.insert x).size) (list.insert x).capacity := by
  rw [size_insert]
  exact h.grow hp hsize

theorem size_le_insertAll (list : KeyedList α) (xs : List α) : list.size ≤ (list.insertAll xs).size := by
  induction xs generalizing list with
  | nil => exact Nat.le_refl _
  | cons x xs ih =>
    have hone := size_insert list x
    have hrest : (list.insert x).size ≤ (list.insertAll (x :: xs)).size := ih (list.insert x)
    omega

/-- While several items come the list only grows, so it is the size in the end that counts. -/
theorem IsLeastDoubling.insertAll (hp : 0 < p) {list : KeyedList α}
    (h : IsLeastDoubling p n list.capacity) (hsize : list.size ≤ n) (xs : List α) :
    IsLeastDoubling p (max n (list.insertAll xs).size) (list.insertAll xs).capacity := by
  induction xs generalizing list n with
  | nil => exact h.keep hsize
  | cons x xs ih =>
    have hgrown : (list.insert x).size ≤ (list.insertAll (x :: xs)).size :=
      size_le_insertAll (list.insert x) xs
    have hrest : IsLeastDoubling p (max (max n (list.insert x).size) (list.insertAll (x :: xs)).size)
        (list.insertAll (x :: xs)).capacity :=
      ih (h.insert hp hsize x) (Nat.le_max_right _ _)
    rwa [Nat.max_assoc, Nat.max_eq_right hgrown] at hrest

theorem size_erase_le (list : KeyedList α) (k : κ) : (list.erase k).size ≤ list.size :=
  List.eraseP_sublist.length_le

omit [Ord κ] in
theorem length_modifyNth (p : α → Bool) {change : α → α}
    (keeps : ∀ x, Keyed.key (change x) = Keyed.key x) (n : Nat) (xs : List α) :
    (modifyNth p change n xs).length = xs.length := by
  have hkeys := congrArg List.length (map_key_modifyNth (p := p) keeps n xs)
  rwa [List.length_map, List.length_map] at hkeys

namespace History

/-- The largest size that a list has from a point of its history on, while it is edited further. -/
def peakFrom (h : History α) : List (Edit α) → Nat
  | [] => h.list.size
  | edit :: edits => max h.list.size (peakFrom (h.step edit) edits)

/-- The largest size that a list has had since it was made. -/
def peak (capacity : Nat) (edits : List (Edit α)) : Nat := peakFrom (start capacity) edits

theorem size_le_peakFrom (h : History α) (edits : List (Edit α)) :
    h.list.size ≤ h.peakFrom edits := by
  cases edits with
  | nil => exact Nat.le_refl _
  | cons edit edits => exact Nat.le_max_left _ _

theorem size_foldl_le_peakFrom (h : History α) (edits : List (Edit α)) :
    (edits.foldl step h).list.size ≤ h.peakFrom edits := by
  induction edits generalizing h with
  | nil => exact Nat.le_refl _
  | cons edit edits ih => exact Nat.le_trans (ih (h.step edit)) (Nat.le_max_right _ _)

end History

/-- **One edit.**  Only an item that comes can ask for more room. -/
theorem IsLeastDoubling.step (hp : 0 < p) {h : History α} (hroom : IsLeastDoubling p n h.list.capacity)
    (hsize : h.list.size ≤ n) (edit : Edit α) :
    IsLeastDoubling p (max n (h.step edit).list.size) (h.step edit).list.capacity := by
  cases edit with
  | insert x => exact hroom.insert hp hsize x
  | insertAll xs => exact hroom.insertAll hp hsize xs
  | remove k => exact hroom.keep (Nat.le_trans (size_erase_le h.list k) hsize)
  | clear => exact hroom.keep (Nat.zero_le n)
  | update k older change keeps =>
    have hlength := length_modifyNth (hasKey k) keeps older h.list.items
    exact hroom.keep (Nat.le_trans (Nat.le_of_eq hlength) hsize)

/-- An edit does not take room away. -/
theorem capacity_le_step (h : History α) (edit : Edit α) :
    h.list.capacity ≤ (h.step edit).list.capacity := by
  have hinsert : ∀ (list : KeyedList α) x, list.capacity ≤ (list.insert x).capacity := by
    intro list x
    show _ ≤ if list.size < list.capacity then list.capacity else 2 * list.capacity
    split <;> omega
  cases edit with
  | insert x => exact hinsert h.list x
  | insertAll xs =>
    show h.list.capacity ≤ (h.list.insertAll xs).capacity
    generalize h.list = list
    induction xs generalizing list with
    | nil => exact Nat.le_refl _
    | cons x xs ih => exact Nat.le_trans (hinsert list x) (ih (list.insert x))
  | remove k => exact Nat.le_refl _
  | clear => exact Nat.le_refl _
  | update k older change keeps => exact Nat.le_refl _

/-! ### Any sequence of edits -/

namespace History

theorem isLeastDoubling_foldl (hp : 0 < p) (edits : List (Edit α)) {h : History α}
    (hroom : IsLeastDoubling p n h.list.capacity) (hsize : h.list.size ≤ n) :
    IsLeastDoubling p (max n (h.peakFrom edits)) (edits.foldl step h).list.capacity := by
  induction edits generalizing h n with
  | nil => exact hroom.keep hsize
  | cons edit edits ih =>
    have hrest := ih (hroom.step hp hsize edit) (Nat.le_max_right _ _)
    have hpeak : max (max n (h.step edit).list.size) ((h.step edit).peakFrom edits) =
        max n (h.peakFrom (edit :: edits)) := by
      have := size_le_peakFrom (h.step edit) edits
      rw [peakFrom]
      omega
    rwa [hpeak] at hrest

/-- The room of a list follows the largest size that it has had. -/
theorem isLeastDoubling_run (capacity : Nat) (edits : List (Edit α)) :
    IsLeastDoubling (powerOfTwoFrom capacity) (peak capacity edits)
      (run capacity edits).list.capacity := by
  have hstart : IsLeastDoubling (powerOfTwoFrom capacity) 0 (start capacity : History α).list.capacity :=
    isLeastDoubling_self (Nat.zero_le _)
  have hrun := isLeastDoubling_foldl (powerOfTwoFrom_pos capacity) edits hstart (Nat.zero_le 0)
  rwa [Nat.max_eq_right (Nat.zero_le _)] at hrun

/-- What the room of a list says about its history. -/
structure FollowsPeak (capacity : Nat) (edits : List (Edit α)) : Prop where
  /-- The first room is the least power of two that is enough. -/
  first : IsLeastDoubling 1 (max capacity 1) (start capacity : History α).list.capacity
  /-- The room is the least doubling of the first one that holds the largest size so far. -/
  least : IsLeastDoubling (start capacity : History α).list.capacity (peak capacity edits)
    (run capacity edits).list.capacity
  isPower : ∃ k, (run capacity edits).list.capacity = 2 ^ k
  size_le : (run capacity edits).list.size ≤ (run capacity edits).list.capacity
  /-- The room never shrinks, and what goes out leaves it as it is. -/
  grows : ∀ edit, (run capacity edits).list.capacity ≤ ((run capacity edits).step edit).list.capacity
  remove_eq : ∀ k, ((run capacity edits).list.remove k).2.capacity = (run capacity edits).list.capacity
  clear_eq : (run capacity edits).list.clear.capacity = (run capacity edits).list.capacity
  /-- A word that has place for the first capacity and for the largest size has place for the room. -/
  le_two_pow : ∀ j, capacity ≤ 2 ^ j → peak capacity edits ≤ 2 ^ j →
    (run capacity edits).list.capacity ≤ 2 ^ j

theorem followsPeak_run (capacity : Nat) (edits : List (Edit α)) : FollowsPeak capacity edits := by
  have hfirst := isLeastDoubling_powerOfTwoFrom capacity
  have hroom := isLeastDoubling_run capacity edits
  refine
    { first := hfirst
      least := hroom
      isPower := ?_
      size_le := Nat.le_trans (size_foldl_le_peakFrom _ edits) hroom.enough
      grows := capacity_le_step _
      remove_eq := fun _ => rfl
      clear_eq := rfl
      le_two_pow := fun j => hroom.le_two_pow }
  obtain ⟨i, hi⟩ := hfirst.isDoubling
  obtain ⟨k, hk⟩ := hroom.isDoubling
  exact ⟨i + k, by rw [hk, hi, Nat.one_mul, Nat.pow_add]⟩

end History

/-! ### Lists that are filled by replacing -/

theorem isLeastDoubling_roomFor (n : Nat) : IsLeastDoubling defaultCapacity n (roomFor n) := by
  induction n with
  | zero => exact isLeastDoubling_self (Nat.zero_le _)
  | succ n ih =>
    have hgrown := ih.grow (by decide) (Nat.le_refl n)
    rwa [Nat.max_eq_right (Nat.le_succ n)] at hgrown

theorem Fits.isLeastDoubling {list : KeyedList α} (h : list.Fits) :
    IsLeastDoubling defaultCapacity list.size list.capacity := by
  rw [h]
  exact isLeastDoubling_roomFor list.size

end TreeScript.KeyedList

namespace TreeScript.Node

open KeyedList

/-- The room of the children of a node is the least doubling of the default one that holds them. -/
def HasLeastRoom (node : Node) : Prop :=
  ∀ children ∈ node.children?, IsLeastDoubling defaultCapacity children.size children.capacity

theorem hasLeastRoom_leaf (key : String) (scalar : Scalar) : (leaf key scalar).HasLeastRoom := by
  rintro _ ⟨⟩

theorem hasLeastRoom_composite (key : String) (ns : List Node) : (composite key ns).HasLeastRoom := by
  rintro _ ⟨⟩
  exact (fits_empty.replaceAll ns).isLeastDoubling

theorem everywhere_hasLeastRoom_leaf (key : String) (scalar : Scalar) :
    (leaf key scalar).Everywhere HasLeastRoom :=
  everywhere_leaf.2 (hasLeastRoom_leaf key scalar)

theorem everywhere_hasLeastRoom_composite (key : String) {ns : List Node}
    (h : ∀ n ∈ ns, n.Everywhere HasLeastRoom) : (composite key ns).Everywhere HasLeastRoom := by
  refine everywhere_branch.2 ⟨hasLeastRoom_composite key ns, fun n hn => ?_⟩
  rcases mem_of_mem_replaceAll hn with hn | hn
  · exact h n hn
  · cases hn

/-- A section that is kept as a text has no children. -/
theorem isLeaf_of_readInside_flat {s : Scanner} {n : Node}
    {readNodes : (t : Scanner) → t.remaining ≤ s.remaining → Except Error (List Node)}
    (h : readInside .flat s readNodes = .ok n) : n.isLeaf = true := by
  simp only [readInside] at h
  split at h
  · cases h
  · obtain rfl := Except.ok.inj h
    rfl

theorem isLeaf_of_readWith_flat {s t : Scanner} {n : Node}
    {readNodes : (t : Scanner) → t.remaining < s.remaining → Except Error (List Node)}
    (h : readWith .flat s readNodes = (.ok n, t)) : n.isLeaf = true := by
  simp only [readWith] at h
  split at h
  · cases h
  · obtain rfl := Except.ok.inj (congrArg Prod.fst h)
    rfl
  · simp only [readLeaf] at h
    split at h
    · obtain rfl := Except.ok.inj (congrArg Prod.fst h)
      rfl
    · cases h
  · split at h
    · cases h
    · split at h
      · cases h
      · obtain ⟨hinside, -⟩ := Prod.mk.inj h
        exact isLeaf_of_readInside_flat hinside

theorem everywhere_hasLeastRoom_of_isLeaf {n : Node} (h : n.isLeaf = true) :
    n.Everywhere HasLeastRoom := by
  cases n with
  | leaf key scalar => exact everywhere_hasLeastRoom_leaf key scalar
  | branch key children => cases h

theorem forall_isLeaf_of_readAll_flat (s : Scanner) {ns : List Node}
    (h : (readAll .flat s).1 = .ok ns) : ∀ n ∈ ns, n.isLeaf = true := by
  induction hn : s.remaining using Nat.strong_induction_on generalizing s ns with
  | _ n ih =>
    subst hn
    rw [readAll_eq] at h
    split at h
    · obtain rfl := Except.ok.inj h
      exact fun _ hn => absurd hn List.not_mem_nil
    · split at h
      · cases h
      · next first t hread =>
        obtain ⟨others, hothers, rfl⟩ := map_eq_ok_iff.1 h
        exact List.forall_mem_cons.2 ⟨isLeaf_of_readWith_flat hread,
          ih _ (remaining_readWith_lt hread) t hothers rfl⟩

/-- The nodes of a document have no more room than their children ask for. -/
theorem everywhere_hasLeastRoom_of_readAll {mode : ReadMode} {s : Scanner} {ns : List Node}
    (h : (readAll mode s).1 = .ok ns) : ∀ n ∈ ns, n.Everywhere HasLeastRoom := by
  cases mode with
  | recursive =>
    exact forall_of_readAll (fun _ _ => everywhere_hasLeastRoom_leaf _ _)
      (everywhere_hasLeastRoom_leaf _ _) (fun key _ => everywhere_hasLeastRoom_composite key) s h
  | flat =>
    exact fun n hn => everywhere_hasLeastRoom_of_isLeaf (forall_isLeaf_of_readAll_flat s h n hn)

theorem everywhere_hasLeastRoom_of_read {mode : ReadMode} {s : Scanner} {n : Node}
    (h : (read mode s).1 = .ok n) : n.Everywhere HasLeastRoom := by
  cases mode with
  | recursive =>
    exact of_read (fun _ _ => everywhere_hasLeastRoom_leaf _ _) (everywhere_hasLeastRoom_leaf _ _)
      (fun key _ => everywhere_hasLeastRoom_composite key) s h
  | flat =>
    rw [read] at h
    exact everywhere_hasLeastRoom_of_isLeaf (isLeaf_of_readWith_flat (Prod.ext h rfl))

end TreeScript.Node

namespace TreeScript

open KeyedList

/-- **The room of a list follows the largest size that it has had**, from any capacity and through any
edits; and the room of the children of a node that was read follows from their number. -/
theorem room_followsPeak {α κ : Type} [Keyed α κ] [Ord κ] (capacity : Nat) (edits : List (Edit α)) :
    History.FollowsPeak capacity edits ∧
      ∀ (mode : ReadMode) (s : Scanner),
        (∀ ns, (Node.readAll mode s).1 = .ok ns → ∀ n ∈ ns, n.Everywhere Node.HasLeastRoom) ∧
        ∀ n, (Node.read mode s).1 = .ok n → n.Everywhere Node.HasLeastRoom :=
  ⟨History.followsPeak_run capacity edits, fun _ _ =>
    ⟨fun _ => Node.everywhere_hasLeastRoom_of_readAll, fun _ => Node.everywhere_hasLeastRoom_of_read⟩⟩

theorem room_followsPeak_sample :
    let edits : List (Edit (Binding Nat)) :=
      [.insertAll [⟨"b", 1⟩, ⟨"a", 2⟩, ⟨"b", 3⟩], .remove "b", .remove "a", .insert ⟨"c", 4⟩, .clear]
    let document : List Node :=
      [.composite "n" [.leaf "a" (.integer 2), .leaf "b" (.integer 3)]]
    History.FollowsPeak 2 edits ∧ History.peak 2 edits = 3 ∧
      (History.run 2 edits).list.capacity = 4 ∧ (History.run 2 edits).list.size = 0 ∧
      (Node.readAll .recursive (.ofString "[n: a: 1; a: 2; b: 3;]")).1 = .ok document ∧
      ∀ n ∈ document, n.Everywhere Node.HasLeastRoom := by
  intro edits document
  have hread : (Node.readAll .recursive (.ofString "[n: a: 1; a: 2; b: 3;]")).1 = .ok document := by
    with_unfolding_all rfl
  have hrooms := room_followsPeak 2 edits
  exact ⟨hrooms.1, by with_unfolding_all rfl, by with_unfolding_all rfl, by with_unfolding_all rfl, hread,
    (hrooms.2 .recursive _).1 document hread⟩

end TreeScript
