import ModuleCompiler.Component

/-!
Values of which a store holds at most one, and the ways in which a request to a store is refused.
-/

namespace ModuleCompiler

/-- The kinds of value that belong to a store as a whole. -/
inductive Unique where
  /-- The entities of the primitive types. -/
  | primitives
  | number
  | text
  | lines
  deriving DecidableEq

namespace Unique

@[reducible] def Value : Unique → Type
  | .primitives => List (Primitive × Entity)
  | .number => UInt32
  | .text => String
  | .lines => List String

/-- The name that messages use for a kind of value. -/
def typeName : Unique → String
  | .primitives => "rift_ast::native::NativeTypes"
  | .number => "u32"
  | .text => "alloc::string::String"
  | .lines => "alloc::vec::Vec<alloc::string::String>"

end Unique

/-- Why a request was refused. -/
inductive Fault where
  | stale (id : Entity)
  | staleParent (id : Entity)
  | linkKind (kind : Kind)
  | lacks (id : Entity) (kind : Kind)
  | lostToObserver (kind : Kind) (id : Entity)
  | hasChildren (id : Entity)
  | hasParent (id : Entity)
  | ownParent (id : Entity)
  | ownDescendant (child parent : Entity)
  | alreadyLinked (child parent : Entity)
  | noUnique (unique : Unique)
  | slotsExhausted
  /-- A run was given fewer levels than its observers needed. -/
  | observersTooDeep
  | linkCycle
  | dedentAtMargin
  deriving DecidableEq

def Fault.message : Fault → String
  | .stale id => s!"stale or invalid entity {id.render}"
  | .staleParent id => s!"stale or invalid parent {id.render}"
  | .linkKind kind => s!"{kind.typeName} is maintained by the hierarchy API"
  | .lacks id kind => s!"entity {id.render} has no {kind.typeName} component"
  | .lostToObserver kind id =>
    s!"an observer removed the {kind.typeName} it was notified about on {id.render}"
  | .hasChildren id => s!"destroying {id.render} which still has children"
  | .hasParent id => s!"destroying {id.render} which is still linked to a parent"
  | .ownParent id => s!"{id.render} cannot be its own parent"
  | .ownDescendant child parent =>
    s!"linking {child.render} under its own descendant {parent.render}"
  | .alreadyLinked child parent =>
    s!"{child.render} is already linked to {parent.render}; use transfer_children"
  | .noUnique unique => s!"store has no {unique.typeName} unique"
  | .slotsExhausted => "component table overflow"
  | .observersTooDeep => "observers are nested too deeply"
  | .linkCycle => "the links to parents run in a circle"
  | .dedentAtMargin => "dedent called with zero indent"

end ModuleCompiler
