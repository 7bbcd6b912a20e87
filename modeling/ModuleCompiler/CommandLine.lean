import ModuleCompiler.Options
import ModuleCompiler.Pipeline
import ModuleCompiler.Project

/-!
The command line: what the program prints, the files it leaves and the code it ends with, as a
function of its arguments, the files it finds and the launcher.
-/

namespace ModuleCompiler.CommandLine

structure Outcome where
  code : Nat
  output : String
  errorOutput : String
  disk : Disk

/-- Lines of text, each with its end. -/
def linesText (lines : List String) : String := String.join (lines.map (· ++ "\n"))

def version : String := "0.1.0-alpha.1"

/-- What is logged when nothing else is asked for. -/
def logFilter : String := "riftc=info"

def verboseLogFilter : String :=
  "riftc=debug,rift_ast=debug,rift_codegen=debug,rift_diagnostic=debug"

def usage : List String :=
  ["Rift Compiler",
    "",
    "Usage: riftc <command> [options]",
    "",
    "Commands:",
    "  build <project>    Generate, compile and package a project",
    "  help               Show this message",
    "  version            Show the compiler version",
    "",
    "Run 'riftc build' for build options."]

def buildUsage : List String :=
  ["Usage: riftc build <project folder or Module.rift> [options]",
    "",
    "Options:",
    "  --debug                 Build in Debug mode",
    "  --release               Build in Release mode (default)",
    "  --mode=<mode>, -m <mode>",
    "                          Build in any CMake configuration",
    "  --intermediates=<path>  Generated code and build trees",
    "                          (default: <project>/Intermediates)",
    "  --binaries=<path>       Copied artifacts (default: <project>/Binaries)",
    "  -v, --verbose           Verbose output",
    "",
    "Set RIFT_CMAKE to use another cmake program."]

/-- Takes in the arguments after the project: a mode may be given as two arguments, everything else
is one. -/
def readOptions (o : BuildOptions) : List String → BuildOptions
  | [] => o
  | [arg] => o.merge (.parse [arg])
  | arg :: next :: rest =>
    if arg = "-m" then readOptions { o with mode := some next } rest
    else readOptions (o.merge (.parse [arg])) (next :: rest)

/-- The warnings given meanwhile. -/
def optionWarnings : List String → List String
  | [] => []
  | [arg] => BuildOptions.warnings [arg]
  | arg :: next :: rest =>
    if arg = "-m" then optionWarnings rest
    else BuildOptions.warnings [arg] ++ optionWarnings (next :: rest)

/-- The folder of the project that a path opens. -/
def projectFolder (d : Disk) (path : Path) : Path :=
  if d.isFolder path then path else path.parent.getD Path.empty

def verboseLines (o : BuildOptions) (c : Config) : List String :=
  if o.verbose then
    [s!"  Intermediates: {c.intermediates.toText}", s!"  Binaries: {c.binaries.toText}",
      s!"  Mode: {c.mode}"]
  else []

/-- What is printed about the diagnostics of a build. -/
def failureLines (diagnostics : List Diagnostic) : List String :=
  let plural := if diagnostics.length = 1 then "" else "s"
  diagnostics.map (fun d => s!"error: {d.message}") ++
    [s!"build failed with {diagnostics.length} error{plural}"]

def build (launcher : Launcher) (tool : BuildTool) (d : Disk) (path : Path) (o : BuildOptions)
    (warnings : List String) : Outcome :=
  match Project.openAt d path with
  | .error e => ⟨1, "", linesText (warnings ++ [s!"error: {e.message}"]), d⟩
  | .ok ast =>
    let config := o.apply (.ofProject (projectFolder d path))
    let told := warnings ++ verboseLines o config
    match Pipeline.run launcher (Pipeline.new ast d config tool) with
    | .ok _ p =>
      let diagnostics := p.workspace.compilation.diagnostics
      if diagnostics.isEmpty then ⟨0, "", linesText told, p.workspace.disk⟩
      else ⟨1, "", linesText (told ++ failureLines diagnostics), p.workspace.disk⟩
    | .error fault p => ⟨101, "", linesText (told ++ [fault.message]), p.workspace.disk⟩

/-- Runs the program with arguments, not counting its own name. -/
def run (launcher : Launcher) (tool : BuildTool) (d : Disk) : List String → Outcome
  | [] => ⟨1, "", linesText usage, d⟩
  | "build" :: [] => ⟨1, "", linesText buildUsage, d⟩
  | "build" :: path :: options =>
    build launcher tool d (Path.ofString path) (readOptions .default options)
      (optionWarnings options)
  | command :: _ =>
    if command = "help" || command = "--help" || command = "-h" then
      ⟨0, "", linesText usage, d⟩
    else if command = "version" || command = "--version" || command = "-V" then
      ⟨0, linesText [s!"riftc {version}"], "", d⟩
    else ⟨1, "", linesText ([s!"Unknown command: {command}", ""] ++ usage), d⟩

end ModuleCompiler.CommandLine
