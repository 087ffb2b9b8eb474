/-!
# Keyed lists

A keyed list holds items in the order of their keys.  Several items may have one key; they stand in the
order in which they came.  A list also has a capacity, the room that it has reserved: it doubles when an
item comes and the room is full, and it never shrinks.

- `KeyedList.insert`, `KeyedList.remove`, `KeyedList.update`, `KeyedList.clear`: changes.
- `KeyedList.find?`, `KeyedList.findOr?`, `KeyedList.contains`, `KeyedList.get?`: look-ups.
-/

namespace TreeScript

/-- Types whose values have a key. -/
class Keyed (α : Type) (κ : outParam Type) where
  /-- The key by which a value is ordered and found. -/
  key : α → κ

/-- A list of items in the order of their keys, and the room that is reserved for it. -/
structure KeyedList (α : Type) where
  items : List α
  capacity : Nat
deriving Repr, BEq

namespace KeyedList

variable {α κ : Type}

/-- The room that a list has when nothing else is asked for. -/
def defaultCapacity : Nat := 16

/-- The least power of two that is not below `n`. -/
def powerOfTwoFrom (n : Nat) : Nat := if n ≤ 1 then 1 else Nat.pow 2 ((n - 1).log2 + 1)

/-- A list without items, whose room is the least power of two that is enough. -/
def withCapacity (capacity : Nat) : KeyedList α := ⟨[], powerOfTwoFrom capacity⟩

/-- A list without items. -/
def empty : KeyedList α := withCapacity defaultCapacity

instance : EmptyCollection (KeyedList α) := ⟨empty⟩

instance : Inhabited (KeyedList α) := ⟨empty⟩

/-- The number of items. -/
def size (list : KeyedList α) : Nat := list.items.length

/-- Whether there are no items. -/
def isEmpty (list : KeyedList α) : Bool := list.items.isEmpty

/-- The item at a place in the order. -/
def get? (list : KeyedList α) (index : Nat) : Option α := list.items[index]?

/-- The list without its items, in the same room. -/
def clear (list : KeyedList α) : KeyedList α := { list with items := [] }

section Keys

variable [Keyed α κ] [Ord κ]

/-- Whether an item has a given key. -/
def hasKey (k : κ) (x : α) : Bool := compare (Keyed.key x) k = .eq

/-- Whether an item does not belong behind a given one. -/
def notAfter (x y : α) : Bool := compare (Keyed.key x) (Keyed.key y) ≠ .lt

/-- The keys in order. -/
def keys (list : KeyedList α) : List κ := list.items.map Keyed.key

/-- Puts an item behind all items whose keys are not larger. -/
def insert (list : KeyedList α) (x : α) : KeyedList α where
  items := list.items.takeWhile (notAfter x) ++ x :: list.items.dropWhile (notAfter x)
  capacity := if list.items.length < list.capacity then list.capacity else 2 * list.capacity

/-- Puts in several items, one after the other. -/
def insertAll (list : KeyedList α) (xs : List α) : KeyedList α := xs.foldl insert list

/-- A list of several items. -/
def ofList (xs : List α) : KeyedList α := empty.insertAll xs

/-- Takes out the first item with a key. -/
def erase (list : KeyedList α) (k : κ) : KeyedList α :=
  { list with items := list.items.eraseP (hasKey k) }

/-- Puts in an item in place of the first one with its key. -/
def replace (list : KeyedList α) (x : α) : KeyedList α := (list.erase (Keyed.key x)).insert x

/-- The first item with a key. -/
def find? (list : KeyedList α) (k : κ) : Option α := list.items.find? (hasKey k)

/-- Takes out the first item with a key: the item, if there is one, and what is left. -/
def remove (list : KeyedList α) (k : κ) : Option α × KeyedList α := (list.find? k, list.erase k)

/-- The first item with a key, or the first one in a second list. -/
def findOr? (list : KeyedList α) (k : κ) (fallback : Option (KeyedList α)) : Option α :=
  list.find? k <|> fallback.bind (·.find? k)

/-- Whether an item has the key. -/
def contains (list : KeyedList α) (k : κ) : Bool := list.items.any (hasKey k)

/-- Changes the first item with a key.  A change that keeps the key keeps the order. -/
def update (list : KeyedList α) (k : κ) (change : α → α) : KeyedList α :=
  { list with
    items := list.items.takeWhile (!hasKey k ·) ++
      (list.items.dropWhile (!hasKey k ·)).modifyHead change }

end Keys

end KeyedList

end TreeScript
