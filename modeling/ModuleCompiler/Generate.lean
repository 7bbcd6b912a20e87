import ModuleCompiler.Compilation
import ModuleCompiler.Descriptor
import ModuleCompiler.Header
import ModuleCompiler.Module

/-!
Writing the generated files. A file that cannot be written is reported and the others are written
all the same.
-/

namespace ModuleCompiler

/-- What a build works on: the program, the files, and the compilation. -/
structure Workspace where
  ast : Ast
  disk : Disk
  compilation : Compilation

namespace Workspace

/-- Work that only a refused request to the store breaks off. -/
abbrev Action := EStateM Fault Workspace

def Action.ofAst {α : Type} (action : Ast.Action α) : Action α := fun w =>
  match action w.ast with
  | .ok a ast => .ok a { w with ast := ast }
  | .error e ast => .error e { w with ast := ast }

def Action.ofRead {α : Type} (f : Store → Except Fault α) : Action α := fun w =>
  match f w.ast.store with
  | .ok a => .ok a w
  | .error e => .error e w

def report (d : Diagnostic) : Action Unit :=
  modify fun w => { w with compilation := w.compilation.report d }

/-- Changes files; answers whether that went well, and reports when it did not. -/
def attempt {ε : Type} (action : EStateM ε Disk Unit) (reason : ε → Diagnostic) : Action Bool :=
  fun w =>
    match action w.disk with
    | .ok _ disk => .ok true { w with disk := disk }
    | .error e disk =>
      .ok false { w with disk := disk, compilation := w.compilation.report (reason e) }

/-- Saves a text file, or reports that it could not be saved. -/
def save (file : Path) (text : String) (reason : Path → OsError → Diagnostic) : Action Unit :=
  discard (attempt (Disk.saveText file text) (reason file))

def headerFile (codeFolder : Path) (name : String) : Path :=
  ((codeFolder.child name).child "Include").child "code.h"

def sourceFile (codeFolder : Path) (name : String) : Path :=
  ((codeFolder.child name).child "Src").child "code.cpp"

def rootDescriptorFile (codeFolder : Path) : Path := codeFolder.child Descriptor.fileName

def moduleDescriptorFile (codeFolder : Path) (name : String) : Path :=
  (codeFolder.child name).child Descriptor.fileName

/-- Writes the header and the source file of one module. -/
def generateModuleCode (codeFolder : Path) (module : Entity) (isProject : Bool) :
    Action Unit := do
  let name ← Action.ofRead (·.moduleName module)
  let code ← Action.ofRead (·.moduleCode module isProject)
  save (headerFile codeFolder name) code.header .headerNotSaved
  save (sourceFile codeFolder name) code.source .sourceNotSaved

/-- Writes the code of every module. -/
def generateCode : Action Unit := do
  Action.ofAst Ast.spellPrimitives
  Action.ofAst Ast.spellParameters
  let codeFolder := (← get).compilation.config.code
  let project ← Action.ofRead Store.projectModule
  let modules ← Action.ofRead Store.modules
  modules.forM fun id => generateModuleCode codeFolder id (project = some id)

/-- What is wrong with the names of the modules, in order: a module without a name, or one with the
name of an earlier module. -/
def nameProblems : (seen : List String) → List (Entity × String) → List Diagnostic
  | _, [] => []
  | seen, (id, name) :: rest =>
    if name = "" then .namelessModule id :: nameProblems seen rest
    else if name ∈ seen then .duplicateModule name :: nameProblems seen rest
    else nameProblems (name :: seen) rest

/-- Writes the descriptor of one module. -/
def generateModuleDescriptor (codeFolder : Path) (id : Entity) (name : String) : Action Unit := do
  let target ← Action.ofRead (·.require .module id)
  let text ← Action.ofRead fun _ => Descriptor.module name target
  save (moduleDescriptorFile codeFolder name) text .descriptorNotSaved

/-- Writes the build descriptors, provided that there is a project and that the names of the
modules are fit to be names of targets. -/
def generateDescriptors : Action Unit := do
  match ← Action.ofRead Store.projectModule with
  | none => report .nothingToDescribe
  | some project =>
    let ids ← Action.ofRead Store.modules
    let modules ← Action.ofRead fun s =>
      mapChecked (fun id => return (id, ← s.moduleName id)) ids
    let problems := nameProblems [] modules
    if problems.isEmpty then
      let codeFolder := (← get).compilation.config.code
      let projectName ← Action.ofRead (·.moduleName project)
      save (rootDescriptorFile codeFolder) (Descriptor.root projectName (modules.map Prod.snd))
        .descriptorNotSaved
      modules.forM fun (id, name) => generateModuleDescriptor codeFolder id name
    else problems.forM report

end Workspace

end ModuleCompiler
