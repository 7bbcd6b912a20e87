import ModuleCompiler.Disk.Walk
import ModuleCompiler.Module
import ModuleCompiler.Primitives
import ModuleCompiler.ProjectFile

/-!
Opening a project. A project is a folder with a module file. Every folder below it with its own
module file is a module, and every type file belongs to the module whose folder is the closest
around it.
-/

namespace ModuleCompiler

namespace Project

def moduleFileName : String := "Module.rift"

def typeExtension : String := "rf"

/-- Why a project cannot be opened. -/
inductive OpenError where
  | notAProject (path : Path)
  | unreadable (path : Path) (cause : OsError)
  | unscannable (path : Path) (cause : Disk.WalkError)
  | malformed (path : Path)
  | unknownCategory (path : Path) (category : String)
  | unknownTarget (path : Path) (target : String)
  /-- A request to the store was refused. -/
  | refused (fault : Fault)
  deriving DecidableEq

/-- The text of an error. What is wrong with a malformed file is not said. -/
def OpenError.message : OpenError → String
  | .notAProject p => s!"no '{moduleFileName}' found at '{p.toText}'"
  | .unreadable p e => s!"couldn't read '{p.toText}': {e.message}"
  | .unscannable p e => s!"couldn't scan '{p.toText}': {e.message}"
  | .malformed p => s!"invalid JSON in '{p.toText}': <json>"
  | .unknownCategory p category => s!"unknown type category '{category}' in '{p.toText}'"
  | .unknownTarget p target => s!"unknown module target '{target}' in '{p.toText}'"
  | .refused fault => fault.message

abbrev Loading := EStateM OpenError Ast

/-- A request to the tree that is being loaded. -/
def Loading.ofAction {α : Type} (action : Ast.Action α) : Loading α := fun ast =>
  match action ast with
  | .ok a changed => .ok a changed
  | .error fault changed => .error (.refused fault) changed

/-- A step that does not touch the tree. -/
def Loading.ofExcept {α : Type} : Except OpenError α → Loading α
  | .ok a => pure a
  | .error e => throw e

/-- Gives a type the tag of its category, and no other. -/
def tagCategory : Observer := fun id =>
  .edit (.remove .classTag id) <| .edit (.remove .structTag id) <|
    .edit (.remove .libraryTag id) <| .reading (·.require .typeInfo id) fun type =>
      match type.category with
      | .classType => .insert .classTag id () .done
      | .structType => .insert .structTag id () .done
      | .functionLibrary => .insert .libraryTag id () .done

def readText (d : Disk) (file : Path) : Except OpenError String :=
  match d.readText file with
  | .ok text => .ok text
  | .error e => .error (.unreadable file e)

/-- What a module file says: a name, unless it is empty, and a target. -/
structure ModuleDescription where
  name : Option String
  target : ModuleTarget
  deriving DecidableEq

/-- A name that is not empty. -/
def properName (name : Option String) : Option String := name.filter (· ≠ "")

def describeModule (d : Disk) (file : Path) : Except OpenError ModuleDescription := do
  let text ← readText d file
  match ModuleFile.parse? text with
  | none => throw (.malformed file)
  | some descriptor =>
    match descriptor.target with
    | none => return ⟨properName descriptor.name, .executable⟩
    | some name =>
      match ModuleTarget.ofName? name with
      | some target => return ⟨properName descriptor.name, target⟩
      | none => throw (.unknownTarget file name)

/-- What a type file says. -/
structure TypeDescription where
  type : TypeInfo
  members : List String
  functions : List FunctionEntry
  deriving DecidableEq

/-- The name of a type, which is that of its file when none is given. -/
def nameOfType (file : Path) (name : Option String) : String :=
  (properName name).getD (((file.fileStem).map String.ofList).getD "")

def describeType (d : Disk) (file : Path) : Except OpenError TypeDescription := do
  let text ← readText d file
  match TypeFile.parse? text with
  | none => throw (.malformed file)
  | some descriptor =>
    match TypeCategory.ofName? descriptor.category with
    | some category =>
      return ⟨⟨nameOfType file descriptor.name, category⟩, descriptor.members,
        descriptor.functions⟩
    | none => throw (.unknownCategory file descriptor.category)

def addModule (file : Path) (m : ModuleDescription) : Ast.Action Entity := do
  let id ← Ast.create
  discard (Ast.insert .module id m.target)
  discard (Ast.insert .fileRef id file)
  match m.name with
  | some name => discard (Ast.insert .identifier id name)
  | none => pure ()
  return id

/-- A named entity with one more component. -/
def addNamed (name : String) (k : Kind) (v : k.Value) : Ast.Action Entity := do
  let id ← Ast.create
  discard (Ast.insert .identifier id name)
  discard (Ast.insert k id v)
  return id

def addChild (parent child : Entity) : Ast.Action Unit := Ast.edit (.addChildren parent [child])

def addVariable (type : Entity) (name : String) : Ast.Action Unit := do
  addChild type (← addNamed name .variableTag ())

def addParameter (function : Entity) (p : ParameterEntry) : Ast.Action Unit := do
  addChild function (← addNamed p.name .parameter p.type)

def addFunction (type : Entity) (f : FunctionEntry) : Ast.Action Unit := do
  let id ← addNamed f.name .functionTag ()
  addChild type id
  f.parameters.forM (addParameter id)

def addType (file : Path) (t : TypeDescription) : Ast.Action Entity := do
  let id ← Ast.create
  discard (Ast.insert .fileRef id file)
  discard (Ast.insert .identifier id t.type.name)
  discard (Ast.insert .typeInfo id t.type)
  t.members.forM (addVariable id)
  t.functions.forM (addFunction id)
  return id

/-- The module file that a path opens: the path itself, or the one in the folder it names. -/
def moduleFileOf (d : Disk) (path : Path) : Path :=
  if d.isFolder path then path.child moduleFileName else path

/-- The folder that a file lies in. -/
def folderOf (file : Path) : Path := file.parent.getD Path.empty

/-- The files of a walk other than the one the project was opened by. -/
def otherFiles (projectFile : Path) (visits : List Disk.Visit) : List Path :=
  visits.filterMap fun v =>
    match v.entry with
    | .file _ => if v.path.same projectFile then none else some v.path
    | .folder => none

def isModuleFile (file : Path) : Bool := file.fileName = some moduleFileName.toList

def isTypeFile (file : Path) : Bool :=
  !isModuleFile file && file.extension = some typeExtension.toList

/-- The module files below a project, those with fewer steps first. -/
def moduleFiles (files : List Path) : List Path :=
  (files.filter isModuleFile).mergeSort fun a b => a.depth ≤ b.depth

def typeFiles (files : List Path) : List Path := files.filter isTypeFile

/-- The module whose folder is the closest around a folder; the first module when there is none. -/
def closestModule (project : Entity) (modules : List (Entity × Path)) (folder : Path) : Entity :=
  ((Store.deepest (modules.filter (folder.startsWith ·.2))).map Prod.fst).getD project

def loadModule (d : Disk) (file : Path) : Loading Entity := do
  Loading.ofAction (addModule file (← Loading.ofExcept (describeModule d file)))

/-- Loads the modules below a project, and answers all modules with their folders. -/
def loadModules (d : Disk) (project : Entity) :
    List (Entity × Path) → List Path → Loading (List (Entity × Path))
  | modules, [] => return modules
  | modules, file :: rest => do
    let folder := folderOf file
    let owner := closestModule project modules folder
    let id ← loadModule d file
    Loading.ofAction (addChild owner id)
    loadModules d project (modules ++ [(id, folder)]) rest

def loadType (d : Disk) (project : Entity) (modules : List (Entity × Path)) (file : Path) :
    Loading Unit := do
  let owner := closestModule project modules (folderOf file)
  let id ← Loading.ofAction (addType file (← Loading.ofExcept (describeType d file)))
  Loading.ofAction (addChild owner id)

/-- Scans the folder of a project. -/
def scan (d : Disk) (root projectFile : Path) : Except OpenError (List Path) :=
  match d.walk root with
  | .ok visits => .ok (otherFiles projectFile visits)
  | .error e => .error (.unscannable root e)

/-- Loads everything into a tree that has nothing in it yet. -/
def load (d : Disk) (projectFile : Path) : Loading Unit := do
  discard (Loading.ofAction Ast.registerPrimitives)
  Loading.ofAction (Ast.observe .typeInfo tagCategory)
  let root := folderOf projectFile
  let project ← loadModule d projectFile
  let files ← Loading.ofExcept (scan d root projectFile)
  let modules ← loadModules d project [(project, root)] (moduleFiles files)
  (typeFiles files).forM (loadType d project modules)

/-- Opens the project that a folder holds or a module file starts. -/
def openAt (d : Disk) (path : Path) : Except OpenError Ast :=
  let file := moduleFileOf d path
  if d.isFile file && isModuleFile file then
    match load d file Ast.empty with
    | .ok _ ast => .ok ast
    | .error e _ => .error e
  else .error (.notAProject path)

end Project

end ModuleCompiler
