import ModuleCompiler.Hierarchy
import ModuleCompiler.Query

/-!
Modules: the entities with a module component. A module lies in the folder of its file. The module
around another is found by the links first and by the folders otherwise; the first module with none
around it is the project.
-/

namespace ModuleCompiler.Store

def modules (s : Store) : Except Fault (List Entity) := Query.ids ⟨.module, []⟩ s

/-- The folder of an entity's file; the empty path when it has no file. -/
def modulePath (s : Store) (id : Entity) : Except Fault Path := do
  return ((← s.get? .fileRef id).bind Path.parent).getD Path.empty

/-- The name of a module: its identifier, or else the name of its folder. -/
def moduleName (s : Store) (id : Entity) : Except Fault String := do
  let identifier := (← s.get? .identifier id).getD ""
  if identifier ≠ "" then return identifier
  let folder ← s.modulePath id
  return ((folder.fileName).map String.ofList).getD ""

/-- Of the candidates, the last among those whose paths have the most steps. -/
def deepest {α : Type} (candidates : List (α × Path)) : Option (α × Path) :=
  candidates.foldl
    (fun best c =>
      match best with
      | some b => if b.2.depth ≤ c.2.depth then some c else some b
      | none => some c)
    none

/-- Whether a folder lies strictly inside another; an empty path is no folder. -/
def liesInside (folder other : Path) : Bool :=
  !other.isEmpty && !folder.same other && folder.startsWith other

/-- The module whose folder is the closest around that of `id`. -/
def moduleByFolder (s : Store) (id : Entity) : Except Fault (Option Entity) := do
  let folder ← s.modulePath id
  if folder.isEmpty then return none
  let others := (← s.modules).filter (· ≠ id)
  let folders ← mapChecked (fun other => return (other, ← s.modulePath other)) others
  return (deepest (folders.filter (liesInside folder ·.2))).map Prod.fst

/-- The module around an entity. -/
def enclosingModule (s : Store) (id : Entity) : Except Fault (Option Entity) := do
  match ← s.findAncestor id (s.has .module ·) with
  | some ancestor => return some ancestor
  | none => s.moduleByFolder id

/-- The modules with none around them. -/
def rootModules (s : Store) : Except Fault (List Entity) := do
  filterChecked (fun id => return (← s.enclosingModule id).isNone) (← s.modules)

/-- The first of the modules with none around them. -/
def projectModule (s : Store) : Except Fault (Option Entity) := do
  return (← s.rootModules).head?

def projectName (s : Store) : Except Fault String := do
  match ← s.projectModule with
  | some id => s.moduleName id
  | none => return ""

def isProject (s : Store) (id : Entity) : Except Fault Bool := do
  return (← s.projectModule) = some id

end ModuleCompiler.Store
