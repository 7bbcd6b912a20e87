import ModuleCompiler.Hierarchy
import ModuleCompiler.Primitives
import ModuleCompiler.Query
import ModuleCompiler.Writer

/-!
The C++ text of a module: a header with the types and functions found below it, and a source file
that includes the header. Structs come before classes and each group is ordered by slot. Functions
are looked for at most two levels below the module. The function of a class takes its object as an
explicit parameter.
-/

namespace ModuleCompiler

/-- The texts generated for one module. -/
structure ModuleCode where
  header : String
  source : String
  deriving DecidableEq

namespace Store

/-- How many levels below its module a function may lie. -/
def functionDepth : Nat := 2

/-- The types with a tag directly under a module. -/
def moduleTypes (s : Store) (tag : Kind) (module : Entity) : Except Fault (List Entity) := do
  filterChecked (fun id => return (← s.parent? id) = some module)
    (← Query.ids ⟨tag, [.typeInfo]⟩ s)

/-- The functions of a module. -/
def moduleFunctions (s : Store) (module : Entity) : Except Fault (List Entity) := do
  Query.retain ⟨.identifier, [.functionTag]⟩ s (← s.descendants module functionDepth)

/-- The name of the class that a function belongs to. -/
def ownerName? (s : Store) (function : Entity) : Except Fault (Option String) := do
  match ← s.parent? function with
  | none => return none
  | some owner =>
    return (← Query.get? ⟨.typeInfo, [.classTag]⟩ s .typeInfo owner).map TypeInfo.name

/-- The C++ signature of a function of the given name and owner. -/
def signatureText (name : String) : Option String → String
  | some owner => s!"void {owner}_{name}({owner}& self)"
  | none => s!"void {name}()"

def signature (s : Store) (function : Entity) : Except Fault String := do
  let owner ← s.ownerName? function
  let name ← s.require .identifier function
  return signatureText name owner

def typeName (s : Store) (id : Entity) : Except Fault String := do
  return (← s.require .typeInfo id).name

/-- The name of a member variable, if the entity is one. -/
def variableName? (s : Store) (id : Entity) : Except Fault (Option String) :=
  Query.get? ⟨.identifier, [.variableTag]⟩ s .identifier id

def memberLine (type name : String) : String := s!"{type} {name} \x7b false \x7d;"

/-- Writes the declaration of a type with its members. -/
def declareType (s : Store) (w : Writer) (id : Entity) : Except Fault Writer := do
  let type ← s.memberType
  let name ← s.typeName id
  let members ← mapChecked s.variableName? (← s.children id)
  let w := (w.line s!"struct {name}").line "\x7b"
  let w := w.indent.lines ((members.filterMap fun m => m).map (memberLine type))
  let w ← w.dedent
  return w.line "\x7d;"

def declareTypes (s : Store) (w : Writer) : List Entity → Except Fault Writer
  | [] => .ok w
  | id :: rest => do declareTypes s (← s.declareType w id) rest

def forwardLine (name : String) : String := s!"struct {name};"

def declarationLine (signature : String) : String := s!"{signature};"

def definitionLines (signature : String) : List String := [s!"inline {signature}", "\x7b", "\x7d"]

def header (s : Store) (module : Entity) : Except Fault String := do
  let w := ((Writer.empty.line "#pragma once").blank).includeLine "stdint.h"
  let types := (← s.moduleTypes .structTag module) ++ (← s.moduleTypes .classTag module)
  let names ← mapChecked s.typeName types
  let w := (w.blank.comment "Forward declarations").lines (names.map forwardLine)
  let w ← s.declareTypes (w.blank.comment "Declarations") types
  let functions ← s.moduleFunctions module
  let signatures ← mapChecked s.signature functions
  let w := (w.blank.comment "Function Declarations").lines (signatures.map declarationLine)
  let w := (w.blank.comment "Function Definitions").lines (signatures.flatMap definitionLines)
  return w.text

/-- The source file of a module. That of the project has the entry point. -/
def source (isProject : Bool) : String :=
  let w := Writer.empty.includeLine "code.h"
  (if isProject then w.blank.line "int main() \x7b return 0; \x7d" else w).text

def moduleCode (s : Store) (module : Entity) (isProject : Bool) : Except Fault ModuleCode := do
  return ⟨← s.header module, source isProject⟩

end Store

end ModuleCompiler
