import ModuleCompiler.Compilation

/-!
The options of a build, read from arguments one at a time. A later argument wins over an earlier
one of the same sort.
-/

namespace ModuleCompiler

/-- What follows a given beginning of a text. -/
def afterStart? (start text : String) : Option String :=
  if start.toList.isPrefixOf text.toList then
    some (String.ofList (text.toList.drop start.toList.length))
  else none

/-- What one argument asks for. -/
inductive BuildFlag where
  | mode (name : String)
  | emptyMode
  | intermediates (path : Path)
  | binaries (path : Path)
  | verbose
  | unknown (text : String)
  deriving DecidableEq

namespace BuildFlag

def ofArgument (arg : String) : BuildFlag :=
  if arg = "--debug" then .mode "Debug"
  else if arg = "--release" then .mode defaultBuildMode
  else if let some name := afterStart? "--mode=" arg then
    if name = "" then .emptyMode else .mode name
  else if let some path := afterStart? "--intermediates=" arg then
    .intermediates (Path.ofString path)
  else if let some path := afterStart? "--binaries=" arg then .binaries (Path.ofString path)
  else if arg = "-v" || arg = "--verbose" then .verbose
  else .unknown arg

/-- What the user is warned of. -/
def warning? : BuildFlag → Option String
  | .emptyMode => some "warning: empty build mode, keeping the default"
  | .unknown text => some s!"warning: unknown option '{text}'"
  | _ => none

end BuildFlag

structure BuildOptions where
  mode : Option String
  intermediates : Option Path
  binaries : Option Path
  verbose : Bool
  deriving DecidableEq

namespace BuildOptions

def default : BuildOptions := ⟨none, none, none, false⟩

instance : Inhabited BuildOptions := ⟨default⟩

/-- The options with one more argument taken in. -/
def take (o : BuildOptions) : BuildFlag → BuildOptions
  | .mode name => { o with mode := some name }
  | .intermediates path => { o with intermediates := some path }
  | .binaries path => { o with binaries := some path }
  | .verbose => { o with verbose := true }
  | .emptyMode => o
  | .unknown _ => o

def parse (args : List String) : BuildOptions :=
  args.foldl (fun o arg => o.take (.ofArgument arg)) default

/-- The warnings that reading arguments gives. -/
def warnings (args : List String) : List String :=
  args.filterMap fun arg => (BuildFlag.ofArgument arg).warning?

/-- Options laid over others: what they set wins. -/
def merge (o other : BuildOptions) : BuildOptions where
  mode := other.mode.orElse fun _ => o.mode
  intermediates := other.intermediates.orElse fun _ => o.intermediates
  binaries := other.binaries.orElse fun _ => o.binaries
  verbose := o.verbose || other.verbose

def apply (o : BuildOptions) (c : Config) : Config where
  intermediates := o.intermediates.getD c.intermediates
  binaries := o.binaries.getD c.binaries
  mode := o.mode.getD c.mode

end BuildOptions

end ModuleCompiler
