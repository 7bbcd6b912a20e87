import ModuleCompiler.Fault
import ModuleCompiler.KeyedMap
import ModuleCompiler.Table

/-!
The entities of a program with their components. Every request first checks that the entity it
names is alive; what a refused request had changed before it was refused stays changed.
-/

namespace ModuleCompiler

structure Slot where
  generation : UInt32
  alive : Bool
  deriving DecidableEq

structure Store where
  slots : List Slot
  /-- The released slots, the next one to be used again first. -/
  free : List Nat
  live : Nat
  tables : KeyedMap Kind fun k => Table k.Value
  uniques : KeyedMap Unique Unique.Value

namespace Store

/-- A request that may change the store and may be refused part way. -/
abbrev Action := EStateM Fault Store

def empty : Store := ⟨[], [], 0, .empty, .empty⟩

instance : Inhabited Store := ⟨empty⟩

/-- A request that only reads. -/
def Action.ofRead {α : Type} (f : Store → Except Fault α) : Action α := fun s =>
  match f s with
  | .ok a => .ok a s
  | .error e => .error e s

def isValid (s : Store) (id : Entity) : Bool :=
  match s.slots[id.index]? with
  | some slot => slot.alive && slot.generation == id.generation
  | none => false

def checkValid (s : Store) (id : Entity) : Except Fault Unit :=
  if s.isValid id then .ok () else .error (.stale id)

/-- The living entities, by slot. -/
def entities (s : Store) : List Entity :=
  s.slots.zipIdx.filterMap fun (slot, index) =>
    if slot.alive then some ⟨index, slot.generation⟩ else none

/-- Wakes a released slot. -/
def wake (slots : List Slot) (index : Nat) : List Slot :=
  slots.modify index fun slot => { slot with alive := true }

/-- A new entity, in the slot released last if there is one. -/
def create : Action Entity := fun s =>
  match s.free with
  | index :: free =>
    let slots := wake s.slots index
    let generation := (slots[index]?.map Slot.generation).getD 0
    .ok ⟨index, generation⟩ { s with slots := slots, free := free, live := s.live + 1 }
  | [] =>
    if s.slots.length < Entity.slotLimit then
      .ok ⟨s.slots.length, 0⟩
        { s with slots := s.slots ++ [⟨0, true⟩], live := s.live + 1 }
    else
      .error .slotsExhausted { s with live := s.live + 1 }

def table? (s : Store) (k : Kind) : Option (Table k.Value) := s.tables.find? k

/-- The component an entity holds, with no check that the entity is alive. -/
def component? (s : Store) (k : Kind) (id : Entity) : Option k.Value :=
  (s.table? k).bind (·.get? id)

/-- The number of components of a kind. -/
def count (s : Store) (k : Kind) : Nat := ((s.table? k).map Table.size).getD 0

/-- The entities with a component of a kind, by slot. -/
def holders (s : Store) (k : Kind) : List Entity := ((s.table? k).map Table.idsBySlot).getD []

/-- Whether an entity holds a component, with no check that the entity is alive. -/
def holds (s : Store) (k : Kind) (id : Entity) : Bool :=
  ((s.table? k).map (·.contains id)).getD false

def has (s : Store) (k : Kind) (id : Entity) : Except Fault Bool := do
  s.checkValid id
  return s.holds k id

def get? (s : Store) (k : Kind) (id : Entity) : Except Fault (Option k.Value) := do
  s.checkValid id
  return s.component? k id

/-- The component that an entity must hold. -/
def require (s : Store) (k : Kind) (id : Entity) : Except Fault k.Value := do
  match ← s.get? k id with
  | some v => return v
  | none => throw (.lacks id k)

/-- The store with a component added or replaced. Its table is made when it is first needed. -/
def withComponent (s : Store) (k : Kind) (id : Entity) (v : k.Value) : Store :=
  { s with tables := s.tables.insert k (((s.table? k).getD .empty).insert id v) }

/-- The store with one component less. -/
def withoutComponent (s : Store) (k : Kind) (id : Entity) : Store :=
  match s.table? k with
  | some t => { s with tables := s.tables.insert k (t.erase id) }
  | none => s

/-- Refuses the kinds that only the hierarchy changes. -/
def checkKind (k : Kind) : Except Fault Unit := if k.isLink then .error (.linkKind k) else .ok ()

/-- Puts a component on a living entity. -/
def attach (k : Kind) (id : Entity) (v : k.Value) : Action Unit := fun s =>
  match s.checkValid id with
  | .ok _ => .ok () (s.withComponent k id v)
  | .error e => .error e s

/-- Takes a component off a living entity and answers it. -/
def detach (k : Kind) (id : Entity) : Action (Option k.Value) := fun s =>
  match s.checkValid id with
  | .ok _ => .ok (s.component? k id) (s.withoutComponent k id)
  | .error e => .error e s

/-- Takes a component off an entity and answers it. -/
def remove (k : Kind) (id : Entity) : Action (Option k.Value) := fun s =>
  match checkKind k with
  | .ok _ => detach k id s
  | .error e => .error e s

/-- Changes the component an entity holds, if it holds one, and answers what it was. -/
def update? (k : Kind) (id : Entity) (f : k.Value → k.Value) : Action (Option k.Value) := fun s =>
  match checkKind k, s.checkValid id with
  | .ok _, .ok _ =>
    match s.component? k id with
    | some v => .ok (some v) (s.withComponent k id (f v))
    | none => .ok none s
  | .error e, _ => .error e s
  | _, .error e => .error e s

/-- Changes the component an entity holds and answers what it was. -/
def update (k : Kind) (id : Entity) (f : k.Value → k.Value) : Action k.Value := do
  match ← update? k id f with
  | some v => return v
  | none => throw (.lacks id k)

/-- Releases the slot of a living entity. -/
def release (s : Store) (id : Entity) : Store :=
  { s with
    slots := s.slots.modify id.index fun slot => ⟨slot.generation + 1, false⟩
    free := id.index :: s.free
    live := s.live - 1 }

/-- Ends an entity that has neither children nor a parent. -/
def destroy (id : Entity) : Action Unit := fun s =>
  if !s.isValid id then .error (.stale id) s
  else if s.holds .children id then .error (.hasChildren id) s
  else if s.holds .parent id then .error (.hasParent id) s
  else .ok () ({ s with tables := s.tables.map fun _ t => t.erase id }.release id)

def unique? (s : Store) (u : Unique) : Option u.Value := s.uniques.find? u

def unique (s : Store) (u : Unique) : Except Fault u.Value :=
  match s.unique? u with
  | some v => .ok v
  | none => .error (.noUnique u)

def setUnique (u : Unique) (v : u.Value) : Action Unit :=
  modify fun s => { s with uniques := s.uniques.insert u v }

/-- Changes a value, if there is one, and answers what it became. -/
def updateUnique? (u : Unique) (f : u.Value → u.Value) : Action (Option u.Value) := fun s =>
  match s.unique? u with
  | some v => .ok (some (f v)) { s with uniques := s.uniques.insert u (f v) }
  | none => .ok none s

/-- The names and sizes of the tables that were ever needed, sorted. -/
def tableSizes (s : Store) : List (String × Nat) :=
  let sizes := s.tables.entries.map fun ⟨k, t⟩ => (k.typeName, t.size)
  sizes.mergeSort fun a b => a.1 < b.1 || (a.1 == b.1 && a.2 ≤ b.2)

def summary (s : Store) : String :=
  let tables := s.tableSizes.map fun (name, size) => s!"(\"{name}\", {size})"
  let listed := String.intercalate ", " tables
  s!"AstStore \x7b entities: {s.live}, pools: [{listed}], .. \x7d"

end Store

end ModuleCompiler
