/-!
Handles of entities. A handle names a slot and the generation the slot had when the entity was
created, so the handle of a released entity never stands for a later one in the same slot.
-/

namespace ModuleCompiler

structure Entity where
  index : Nat
  generation : UInt32
  deriving DecidableEq

namespace Entity

/-- The number of slots a store can have. No entity is ever made in the slot of this number. -/
def slotLimit : Nat := 4294967295

/-- The handle that names nothing. -/
def none : Entity := ⟨slotLimit, 0⟩

instance : Inhabited Entity := ⟨none⟩

def isSome (id : Entity) : Bool := id.index != slotLimit

def render (id : Entity) : String :=
  if id.isSome then s!"Id({id.index}v{id.generation.toNat})" else "Id::NONE"

/-- Handles are ordered by slot, then by generation. -/
def order (a b : Entity) : Ordering :=
  (compare a.index b.index).then (compare a.generation.toNat b.generation.toNat)

end Entity

end ModuleCompiler
