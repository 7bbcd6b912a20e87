import ModuleCompiler.Entity

/-!
The components of one kind. The values lie side by side with the handles of their entities, and a
second list gives, for each slot, the position of its value. A value is removed by moving the last
one into its place.
-/

namespace ModuleCompiler

structure Table (α : Type) where
  /-- The position of each slot's value, for the slots that have one. -/
  sparse : List (Option Nat)
  ids : List Entity
  data : List α

namespace Table

variable {α : Type}

def empty : Table α := ⟨[], [], []⟩

instance : Inhabited (Table α) := ⟨empty⟩

/-- The position of an entity's value. A value of another generation of the slot does not count. -/
def position? (t : Table α) (id : Entity) : Option Nat :=
  match t.sparse[id.index]? with
  | some (some k) => if t.ids[k]? = some id then some k else none
  | _ => none

def contains (t : Table α) (id : Entity) : Bool := (t.position? id).isSome

def get? (t : Table α) (id : Entity) : Option α := (t.position? id).bind (t.data[·]?)

def size (t : Table α) : Nat := t.ids.length

/-- Lengthens the list of positions so that it covers a slot. -/
def cover (sparse : List (Option Nat)) (index : Nat) : List (Option Nat) :=
  sparse ++ List.replicate (index + 1 - sparse.length) none

/-- The table with a value added or replaced. -/
def insert (t : Table α) (id : Entity) (value : α) : Table α :=
  match t.position? id with
  | some k => { t with data := t.data.set k value }
  | none =>
    { sparse := (cover t.sparse id.index).set id.index (some t.data.length)
      ids := t.ids ++ [id]
      data := t.data ++ [value] }

/-- A list without one element, whose place the last element takes. -/
def swapRemove {β : Type} (l : List β) (k : Nat) : List β :=
  match l.getLast? with
  | some last => (l.set k last).dropLast
  | none => l

/-- Points the slot of the element that was moved to position `k` there. -/
def repoint (sparse : List (Option Nat)) (ids : List Entity) (k : Nat) : List (Option Nat) :=
  match ids[k]? with
  | some moved => sparse.set moved.index (some k)
  | none => sparse

/-- The table without an entity's value. -/
def erase (t : Table α) (id : Entity) : Table α :=
  match t.position? id with
  | none => t
  | some k =>
    let ids := swapRemove t.ids k
    { sparse := (repoint t.sparse ids k).set id.index none
      ids := ids
      data := swapRemove t.data k }

/-- The entities with a value, by slot. -/
def idsBySlot (t : Table α) : List Entity := t.sparse.filterMap (·.bind (t.ids[·]?))

end Table

end ModuleCompiler
