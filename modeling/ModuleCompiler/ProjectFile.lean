import ModuleCompiler.Json.Basic
import ModuleCompiler.Text.Blank

/-!
The files that describe a project: module files and type files. A record is written as an object,
whose unknown members are ignored, or as an array of its fields in order.
-/

namespace ModuleCompiler

structure ModuleFile where
  name : Option String
  target : Option String
  deriving DecidableEq, Inhabited

structure ParameterEntry where
  name : String
  type : String
  deriving DecidableEq

structure FunctionEntry where
  name : String
  parameters : List ParameterEntry
  deriving DecidableEq

structure TypeFile where
  category : String
  name : Option String
  members : List String
  functions : List FunctionEntry
  deriving DecidableEq

namespace Json

/-- The value of the one member of a name. A name given twice is refused. -/
def member? (members : List (Option String × Json)) (name : String) : Option (Option Json) :=
  match members.filter (·.1 = some name) with
  | [] => some none
  | [(_, value)] => some (some value)
  | _ => none

/-- The fields of a record, in the given order; a field may be left out. In an object every name
must have a text; in an array only fields at the end can be left out. -/
def fields? (names : List String) : Json → Option (List (Option Json))
  | .object members =>
    if members.all (·.1.isSome) then names.mapM (member? members) else none
  | .array items =>
    if items.length ≤ names.length then
      some (items.map some ++ List.replicate (names.length - items.length) none)
    else none
  | _ => none

def text? : Json → Option String
  | .string text => text
  | _ => none

/-- A text or null. -/
def optionalText? : Json → Option (Option String)
  | .null => some none
  | .string (some text) => some (some text)
  | _ => none

/-- A list of records. -/
def list? {α : Type} (item? : Json → Option α) : Json → Option (List α)
  | .array items => items.mapM item?
  | _ => none

/-- A field that must be there. -/
def required? {α : Type} (read? : Json → Option α) (field : Option Json) : Option α :=
  field.bind read?

/-- A field that has a value when it is left out. -/
def optional? {α : Type} (read? : Json → Option α) (default : α) : Option Json → Option α
  | some value => read? value
  | none => some default

def moduleFile? (json : Json) : Option ModuleFile := do
  match ← fields? ["name", "target"] json with
  | [name, target] =>
    return ⟨← optional? optionalText? none name, ← optional? optionalText? none target⟩
  | _ => none

def variableEntry? (json : Json) : Option String := do
  match ← fields? ["name"] json with
  | [name] => required? text? name
  | _ => none

def parameterEntry? (json : Json) : Option ParameterEntry := do
  match ← fields? ["name", "type"] json with
  | [name, type] => return ⟨← required? text? name, ← required? text? type⟩
  | _ => none

def functionEntry? (json : Json) : Option FunctionEntry := do
  match ← fields? ["name", "parameters"] json with
  | [name, parameters] =>
    return ⟨← required? text? name, ← optional? (list? parameterEntry?) [] parameters⟩
  | _ => none

def typeFile? (json : Json) : Option TypeFile := do
  match ← fields? ["type", "name", "variables", "functions"] json with
  | [category, name, members, functions] =>
    return {
      category := ← required? text? category
      name := ← optional? optionalText? none name
      members := ← optional? (list? variableEntry?) [] members
      functions := ← optional? (list? functionEntry?) [] functions }
  | _ => none

end Json

/-- Reads a module file. A blank one describes a module that says nothing about itself. -/
def ModuleFile.parse? (text : String) : Option ModuleFile :=
  if Text.isBlank text then some ⟨none, none⟩
  else (Json.parse? text.toList).bind Json.moduleFile?

def TypeFile.parse? (text : String) : Option TypeFile :=
  (Json.parse? text.toList).bind Json.typeFile?

end ModuleCompiler
