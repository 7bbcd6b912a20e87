import ModuleCompiler.Observer
import ModuleCompiler.Query

/-!
The primitive types as entities, and what the C++ side attaches before anything is emitted: the
spelling of each primitive type and the text of each parameter.
-/

namespace ModuleCompiler.Ast

/-- Makes the entity of one primitive type. -/
def registerPrimitive (p : Primitive) : Action (Primitive × Entity) := do
  let id ← create
  discard (insert .identifier id p.name)
  discard (insert .primitive id p)
  return (p, id)

/-- Makes the entities of the primitive types, once. -/
def registerPrimitives : Action (List (Primitive × Entity)) := do
  match (← get).store.unique? .primitives with
  | some ids => return ids
  | none =>
    let ids ← Primitive.all.mapM registerPrimitive
    Action.ofStore (Store.setUnique .primitives ids)
    return ids

/-- Attaches its C++ spelling to every primitive type. -/
def spellPrimitives : Action Unit := do
  let ids ← Action.ofRead (Query.ids ⟨.primitive, []⟩)
  ids.forM fun id => do
    let p ← Action.ofRead (·.require .primitive id)
    discard (insert .cppName id p.cppSpelling)

/-- Attaches its C++ text, type and name, to every named parameter. -/
def spellParameters : Action Unit := do
  let ids ← Action.ofRead (Query.ids ⟨.parameter, [.identifier]⟩)
  ids.forM fun id => do
    let typeName ← Action.ofRead (·.require .parameter id)
    let name ← Action.ofRead (·.require .identifier id)
    discard (insert .cppFragment id s!"{typeName} {name}")

end ModuleCompiler.Ast

namespace ModuleCompiler.Store

/-- The type that members are declared with: the spelling attached to the primitive `bool`, if its
entity is still there. -/
def memberType (s : Store) : Except Fault String := do
  match (s.unique? .primitives).bind (·.lookup .bool) with
  | some id => if s.isValid id then return (← s.get? .cppName id).getD "bool" else return "bool"
  | none => return "bool"

end ModuleCompiler.Store
