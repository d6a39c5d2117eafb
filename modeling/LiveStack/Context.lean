/-!
# Contexts

The dictionary and the store of handlers are both divided into contexts. Marking opens a new one,
releasing forgets the newest with all it holds. The first context of each is its root, and can't
be released.
-/

namespace LiveStack

/-- Whose root context was to be released. -/
inductive RootReleased where
  | dictionary
  | layers
deriving DecidableEq, Repr

/-- The wording of the error. -/
def RootReleased.message : RootReleased → String
  | .dictionary => "Releasing the root context of the dictionary!"
  | .layers => "Releasing the root context of a contextual list!"

/-- The items of one context, and the overall index of the first. -/
structure Layer (α : Type) where
  start : Nat
  items : Array α
deriving DecidableEq, Repr

/-- A list that only grows at its end, divided into contexts. Every item has an overall index,
which stays valid until the item's context is released. -/
structure Layers (α : Type) where
  newest : Layer α
  older : List (Layer α)
deriving DecidableEq, Repr

namespace Layers

variable {α : Type}

/-- No items, and only the root context. -/
def empty : Layers α := ⟨⟨0, #[]⟩, []⟩

/-- The number of items in all contexts. -/
def size (layers : Layers α) : Nat :=
  layers.newest.start + layers.newest.items.size

/-- Open a new context. -/
def mark (layers : Layers α) : Layers α :=
  ⟨⟨layers.size, #[]⟩, layers.newest :: layers.older⟩

/-- Forget the newest context. -/
def release (layers : Layers α) : Except RootReleased (Layers α) :=
  match layers.older with
  | [] => .error .layers
  | newest :: older => .ok ⟨newest, older⟩

/-- Add an item to the newest context. -/
def push (layers : Layers α) (item : α) : Layers α :=
  { layers with newest := ⟨layers.newest.start, layers.newest.items.push item⟩ }

/-- Add an item to the newest context, and give its overall index. -/
def insert (layers : Layers α) (item : α) : Nat × Layers α := (layers.size, layers.push item)

/-- The item of an overall index: it belongs to the newest context that starts no later. -/
def get? (layers : Layers α) (index : Nat) : Option α := do
  let layer ← (layers.newest :: layers.older).find? (·.start ≤ index)
  layer.items[index - layer.start]?

/-- The number of contexts. -/
def depth (layers : Layers α) : Nat := layers.older.length + 1

end Layers

end LiveStack
