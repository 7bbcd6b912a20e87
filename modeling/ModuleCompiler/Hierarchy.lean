import ModuleCompiler.Store

/-!
Links between entities. A link is kept on both sides: the parent lists its children in order and
each child names its parent. An entity without children has no list, and one without a parent
names none.
-/

namespace ModuleCompiler.Store

/-- The children of an entity, in order. -/
def children (s : Store) (id : Entity) : Except Fault (List Entity) := do
  return (← s.get? .children id).getD []

/-- The parent of an entity. -/
def parent? (s : Store) (id : Entity) : Except Fault (Option Entity) := s.get? .parent id

/-- The first entity on the way up from `id` that passes the test. A way up has at most as many
steps as there are slots, unless it runs in a circle. -/
def climb (s : Store) (test : Entity → Except Fault Bool) :
    Nat → Entity → Except Fault (Option Entity)
  | 0, _ => .error .linkCycle
  | steps + 1, id => do
    match ← s.parent? id with
    | none => return none
    | some ancestor =>
      if ← test ancestor then return some ancestor else climb s test steps ancestor

def findAncestor (s : Store) (id : Entity) (test : Entity → Except Fault Bool) :
    Except Fault (Option Entity) :=
  s.climb test (s.slots.length + 1) id

/-- The children of each entity of a list, one list after the other. -/
def childrenOfAll (s : Store) : List Entity → Except Fault (List Entity)
  | [] => .ok []
  | id :: rest => do
    let own ← s.children id
    let others ← childrenOfAll s rest
    return own ++ others

/-- What lies below the entities of one level, level by level, down to a number of levels. -/
def levelsBelow (s : Store) : Nat → List Entity → Except Fault (List Entity)
  | 0, _ => .ok []
  | _, [] => .ok []
  | levels + 1, id :: rest => do
    let next ← s.childrenOfAll (id :: rest)
    let below ← levelsBelow s levels next
    return next ++ below

def descendants (s : Store) (root : Entity) (depth : Nat) : Except Fault (List Entity) :=
  s.levelsBelow depth [root]

/-- The greatest depth that can be asked for. -/
def depthLimit : Nat := 18446744073709551615

def allDescendants (s : Store) (root : Entity) : Except Fault (List Entity) :=
  s.descendants root depthLimit

/-- Refuses a link that would make an entity its own ancestor or give it a second parent. -/
def checkLink (s : Store) (parent child : Entity) : Except Fault Unit := do
  if child = parent then throw (.ownParent child)
  let above ← s.findAncestor parent fun ancestor => .ok (ancestor = child)
  if above.isSome then throw (.ownDescendant child parent)
  match ← s.parent? child with
  | some old => throw (.alreadyLinked child old)
  | none => return

/-- Lets a child name its parent. The parent's list is left as it is. -/
def nameParent (parent child : Entity) : Action Unit := do
  Action.ofRead (·.checkLink parent child)
  attach .parent child parent

/-- Puts children at the end of an entity's list. -/
def appendChildren (parent : Entity) (added : List Entity) : Action Unit := do
  match ← Action.ofRead (·.get? .children parent) with
  | some old => attach .children parent (old ++ added)
  | none => if added.isEmpty then pure () else attach .children parent added

/-- Links entities that have no parent under one. Each is checked and names its parent before the
next is looked at; the parent's list grows at the end. -/
def addChildren (parent : Entity) (added : List Entity) : Action Unit := do
  if !(← get).isValid parent then throw (.staleParent parent)
  added.forM (nameParent parent)
  appendChildren parent added

def addChild (parent child : Entity) : Action Unit := addChildren parent [child]

/-- Takes an entity out of a list of children. A list that becomes empty is dropped. -/
def dropFromList (parent child : Entity) : Action Unit := do
  match ← Action.ofRead (·.get? .children parent) with
  | none => pure ()
  | some old =>
    let rest := old.filter (· ≠ child)
    if rest.isEmpty then discard (detach .children parent) else attach .children parent rest

/-- Unlinks an entity from its parent and answers the parent. -/
def removeChild (child : Entity) : Action (Option Entity) := do
  match ← detach .parent child with
  | none => return none
  | some parent =>
    dropFromList parent child
    return some parent

def removeChildren (removed : List Entity) : Action Unit :=
  removed.forM fun child => discard (removeChild child)

/-- Unlinks all children of an entity. -/
def removeAllChildren (parent : Entity) : Action Unit := do
  match ← detach .children parent with
  | none => pure ()
  | some list => list.forM fun child => discard (detach .parent child)

/-- Moves entities under another parent. -/
def transferChildren (moved : List Entity) (destination : Entity) : Action Unit := do
  removeChildren moved
  addChildren destination moved

/-- Ends an entity and everything below it. -/
def destroySubtree (root : Entity) : Action Unit := do
  discard (removeChild root)
  let nodes := (← Action.ofRead (·.allDescendants root)) ++ [root]
  nodes.forM removeAllChildren
  nodes.forM destroy

end ModuleCompiler.Store
