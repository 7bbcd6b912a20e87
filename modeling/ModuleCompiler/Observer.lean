import ModuleCompiler.Hierarchy

/-!
Observers, and the tree of a program: a store together with the observers that are told when a
component is put on an entity. What an observer does is written as a script of requests to the
store, so it acts through the same requests as everybody else. It may put on components too, of
which other observers are told in turn.
-/

namespace ModuleCompiler

/-- The changes of which no observer is told. -/
inductive Edit where
  | destroy (id : Entity)
  | remove (k : Kind) (id : Entity)
  | update (k : Kind) (id : Entity) (f : k.Value → k.Value)
  | addChildren (parent : Entity) (added : List Entity)
  | removeChildren (removed : List Entity)
  | removeAllChildren (parent : Entity)
  | transferChildren (moved : List Entity) (destination : Entity)
  | destroySubtree (root : Entity)
  | setUnique (u : Unique) (v : u.Value)

def Edit.run : Edit → Store.Action Unit
  | .destroy id => Store.destroy id
  | .remove k id => discard (Store.remove k id)
  | .update k id f => discard (Store.update k id f)
  | .addChildren parent added => Store.addChildren parent added
  | .removeChildren removed => Store.removeChildren removed
  | .removeAllChildren parent => Store.removeAllChildren parent
  | .transferChildren moved destination => Store.transferChildren moved destination
  | .destroySubtree root => Store.destroySubtree root
  | .setUnique u v => Store.setUnique u v

/-- What an observer does, one request after the other. -/
inductive Script where
  | done
  | fail (fault : Fault)
  | read (next : Store → Script)
  | create (next : Entity → Script)
  | insert (k : Kind) (id : Entity) (v : k.Value) (next : Script)
  | edit (change : Edit) (next : Script)
  | observe (k : Kind) (observer : Entity → Script) (next : Script)

/-- An observer acts on the entity it is told about. -/
abbrev Observer := Entity → Script

/-- Goes on with what a reading finds, or ends with its fault. -/
def Script.reading {α : Type} (f : Store → Except Fault α) (next : α → Script) : Script :=
  .read fun s =>
    match f s with
    | .ok a => next a
    | .error e => .fail e

structure Ast where
  store : Store
  /-- The observers of each kind, in the order of their registration. -/
  observers : List (Kind × Observer)

namespace Ast

def empty : Ast := ⟨.empty, []⟩

instance : Inhabited Ast := ⟨empty⟩

/-- A request that may change the tree and may be refused part way. -/
abbrev Action := EStateM Fault Ast

def Action.ofStore {α : Type} (action : Store.Action α) : Action α := fun ast =>
  match action ast.store with
  | .ok a s => .ok a { ast with store := s }
  | .error e s => .error e { ast with store := s }

def Action.ofRead {α : Type} (f : Store → Except Fault α) : Action α :=
  .ofStore (Store.Action.ofRead f)

/-- Registers an observer of a kind. -/
def observe (k : Kind) (observer : Observer) : Action Unit :=
  modify fun ast => { ast with observers := ast.observers ++ [(k, observer)] }

/-- The observers of a kind. -/
def observersOf (ast : Ast) (k : Kind) : List Observer :=
  ast.observers.filterMap fun (k', observer) => if k' = k then some observer else none

/-- Puts a component on an entity, tells the observers, and answers the component they leave. -/
def insertTelling (tell : Kind → Entity → Action Unit) (k : Kind) (id : Entity) (v : k.Value) :
    Action k.Value := do
  Action.ofRead fun _ => Store.checkKind k
  Action.ofStore (Store.attach k id v)
  tell k id
  match ← Action.ofRead (·.get? k id) with
  | some left => return left
  | none => throw (.lostToObserver k id)

/-- Puts a component on an entity that has none, and answers the one it then has. -/
def getOrInsertTelling (tell : Kind → Entity → Action Unit) (k : Kind) (id : Entity)
    (v : k.Value) : Action k.Value := do
  if !(← Action.ofRead (·.has k id)) then discard (insertTelling tell k id v)
  Action.ofStore (Store.update k id fun w => w)

/-- Carries out a script. -/
def perform (tell : Kind → Entity → Action Unit) : Script → Action Unit
  | .done => pure ()
  | .fail fault => throw fault
  | .read next => do perform tell (next (← get).store)
  | .create next => do perform tell (next (← Action.ofStore Store.create))
  | .insert k id v next => do
    discard (insertTelling tell k id v)
    perform tell next
  | .edit change next => do
    Action.ofStore change.run
    perform tell next
  | .observe k observer next => do
    observe k observer
    perform tell next

/-- Tells the observers of a kind, in order; those registered meanwhile are not told. Observers may
cause each other to be told, and nothing keeps them from going on without end. So a run is given a
number of levels, and stops where it would need more. -/
def tell : Nat → Kind → Entity → Action Unit
  | 0, k, _ => do
    if ((← get).observersOf k).isEmpty then pure () else throw .observersTooDeep
  | levels + 1, k, id => do
    ((← get).observersOf k).forM fun observer => perform (tell levels) (observer id)

/-- The levels a run is given: more than there are bytes for a call stack to lie in. -/
def observerLevels : Nat := UInt64.size

/-- Puts a component on an entity and answers it as the observers leave it. -/
def insert (k : Kind) (id : Entity) (v : k.Value) : Action k.Value :=
  insertTelling (tell observerLevels) k id v

/-- Gives an entity a component unless it has one, and answers the one it has. -/
def getOrInsert (k : Kind) (id : Entity) (v : k.Value) : Action k.Value :=
  getOrInsertTelling (tell observerLevels) k id v

def create : Action Entity := .ofStore Store.create

def edit (change : Edit) : Action Unit := .ofStore change.run

end Ast

end ModuleCompiler
