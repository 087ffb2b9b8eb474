import TreeScript.KeyedList

/-!
# Registries of native functions

A program that runs procedures offers them native functions by name.  What a native function is, is up to
the program (`α`); a registry keeps one for each name, in the order of the names.
-/

namespace TreeScript

/-- A native function with its name. -/
structure Binding (α : Type) where
  name : String
  native : α
deriving Repr

instance {α : Type} : Keyed (Binding α) String := ⟨Binding.name⟩

/-- The native functions that are on offer. -/
structure Registry (α : Type) where
  bindings : KeyedList (Binding α)
deriving Repr

namespace Registry

variable {α : Type}

/-- A registry without native functions. -/
def empty : Registry α := ⟨.empty⟩

instance : Inhabited (Registry α) := ⟨empty⟩

/-- Offers a native function, in place of the one with its name. -/
def register (registry : Registry α) (name : String) (native : α) : Registry α :=
  ⟨registry.bindings.replace ⟨name, native⟩⟩

/-- The native function with a name. -/
def get? (registry : Registry α) (name : String) : Option α :=
  (registry.bindings.find? name).map Binding.native

/-- Whether there is a native function with the name. -/
def contains (registry : Registry α) (name : String) : Bool := registry.bindings.contains name

/-- The names in order. -/
def names (registry : Registry α) : List String := registry.bindings.keys

/-- The number of native functions. -/
def size (registry : Registry α) : Nat := registry.bindings.size

/-- The registry of several names, which stand for themselves. -/
def ofNames (names : List String) : Registry String :=
  names.foldl (fun registry name => registry.register name name) empty

end Registry

end TreeScript
