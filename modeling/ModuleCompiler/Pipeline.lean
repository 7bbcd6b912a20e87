import ModuleCompiler.Generate
import ModuleCompiler.Toolchain

/-!
A build, step by step. Each step is taken only if nothing has gone wrong before it; a step that
goes wrong ends the build and leaves what it had written.
-/

namespace ModuleCompiler

inductive BuildState where
  | idle
  | codeGenerated
  | descriptorGenerated
  | compiled
  | artifactsCopied
  | done
  | failed (stage : Stage)
  deriving DecidableEq

def BuildState.isFinished : BuildState → Bool
  | .done => true
  | .failed _ => true
  | _ => false

structure Pipeline where
  workspace : Workspace
  tool : BuildTool
  state : BuildState
  /-- The commands given to the launcher so far. -/
  launches : List Command

namespace Pipeline

/-- Work that only a refused request to the store breaks off. -/
abbrev Action := EStateM Fault Pipeline

def new (ast : Ast) (disk : Disk) (config : Config) (tool : BuildTool) : Pipeline :=
  ⟨⟨ast, disk, .new config⟩, tool, .idle, []⟩

def Action.ofWorkspace {α : Type} (action : Workspace.Action α) : Action α := fun p =>
  match action p.workspace with
  | .ok a w => .ok a { p with workspace := w }
  | .error e w => .error e { p with workspace := w }

def config (p : Pipeline) : Config := p.workspace.compilation.config

def hasErrors (p : Pipeline) : Bool := p.workspace.compilation.hasErrors

def report (d : Diagnostic) : Action Unit := Action.ofWorkspace (Workspace.report d)

def attempt {ε : Type} (action : EStateM ε Disk Unit) (reason : ε → Diagnostic) : Action Bool :=
  Action.ofWorkspace (Workspace.attempt action reason)

/-- Ends a stage: with its summary if anything was reported, else with the state it leads to. -/
def conclude (next : BuildState) (stage : Stage) : Action BuildState := do
  if (← get).hasErrors then
    report (.stageFailed stage)
    return .failed stage
  else return next

/-- Empties the folder of the binaries, if there is a project; answers whether it did. -/
def prepare : Action Bool := do
  if (← get).hasErrors then return false
  match ← Action.ofWorkspace (.ofRead Store.projectModule) with
  | none =>
    report .nothingToBuild
    return false
  | some project =>
    discard (Action.ofWorkspace (.ofRead (·.moduleName project)))
    attempt (Disk.recreateFolder (← get).config.binaries) .binariesNotCleaned

def generateCode : Action BuildState := do
  if !(← prepare) then return .failed .prepare
  if ← attempt (Disk.recreateFolder (← get).config.code) .codeNotPrepared then
    Action.ofWorkspace Workspace.generateCode
  conclude .codeGenerated .codeGeneration

def generateDescriptors : Action BuildState := do
  Action.ofWorkspace Workspace.generateDescriptors
  conclude .descriptorGenerated .descriptorGeneration

/-- Gives a command to the launcher; answers whether that went well, and reports when it did
not. -/
def launch (launcher : Launcher) (command : Command) (reason : LaunchError → Diagnostic) :
    Action Bool := do
  let p ← get
  let (answer, disk) := launcher p.launches command p.workspace.disk
  set { p with
    workspace := { p.workspace with disk := disk }
    launches := p.launches ++ [command] }
  match answer with
  | .ok _ => return true
  | .error e =>
    report (reason e)
    return false

def compile (launcher : Launcher) : Action BuildState := do
  let p ← get
  let config := p.config
  if ← attempt (Disk.createFolder config.cmake) .buildFolderNotMade then
    if ← launch launcher (p.tool.configure config.code config.cmake config.mode)
        .configurationFailed then
      discard (launch launcher (p.tool.build config.cmake config.mode) .buildFailed)
  conclude .compiled .compilation

/-- Where the build leaves the binaries of a module. -/
def builtFolder (config : Config) (name : String) : Path :=
  (config.cmake.child name).child config.mode

/-- Where the binaries of a module go. -/
def artifactFolder (config : Config) (name : String) : Path :=
  (config.binaries.child name).child "Bin"

def copyModule (config : Config) (name : String) : Action Unit :=
  discard (attempt (Disk.copyFolder (builtFolder config name) (artifactFolder config name))
    (.moduleNotCopied name))

/-- Copies the code, and then the binaries of every module whatever became of the others. -/
def copyArtifacts : Action BuildState := do
  let config := (← get).config
  if ← attempt (Disk.copyFolder config.code config.binaries) .codeNotCopied then
    let modules ← Action.ofWorkspace (.ofRead Store.modules)
    modules.forM fun id => do
      copyModule config (← Action.ofWorkspace (.ofRead (·.moduleName id)))
  conclude .artifactsCopied .artifactCopy

/-- What a step from a state does, and the state it leads to. -/
def advance (launcher : Launcher) : BuildState → Action BuildState
  | .idle => generateCode
  | .codeGenerated => generateDescriptors
  | .descriptorGenerated => compile launcher
  | .compiled => copyArtifacts
  | .artifactsCopied => return .done
  | .done => return .done
  | .failed stage => return .failed stage

/-- Takes one step. -/
def step (launcher : Launcher) : Action BuildState := do
  let next ← advance launcher (← get).state
  modify fun p => { p with state := next }
  return next

/-- The number of steps that finish any build. -/
def stepLimit : Nat := 5

/-- Takes steps until the build is finished, at most the given number. -/
def runFor (launcher : Launcher) : Nat → Action BuildState
  | 0 => do return (← get).state
  | steps + 1 => do
    if (← get).state.isFinished then return (← get).state
    discard (step launcher)
    runFor launcher steps

def run (launcher : Launcher) : Action BuildState := runFor launcher stepLimit

end Pipeline

end ModuleCompiler
