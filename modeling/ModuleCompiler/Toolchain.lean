import ModuleCompiler.Disk.Basic

/-!
The external tool that builds the generated code: the commands it is given, how a launch fails, and
launchers, which carry commands out.
-/

namespace ModuleCompiler

structure Command where
  program : String
  args : List String
  deriving DecidableEq

/-- The words of a command, a space between them. -/
def Command.render (c : Command) : String := String.intercalate " " (c.program :: c.args)

/-- Why a launch failed. -/
inductive LaunchError where
  | notFound (program reason : String)
  | notStarted (program reason : String)
  | failed (command : String) (exitCode : Option Int) (errorOutput : String)
  deriving DecidableEq

namespace LaunchError

def exitText : Option Int → String
  | some code => s!"exit code {code}"
  | none => "no exit code"

def message : LaunchError → String
  | .notFound program reason => s!"'{program}' not found: {reason}"
  | .notStarted program reason => s!"couldn't launch '{program}': {reason}"
  | .failed command exitCode _ => s!"'{command}' failed with {exitText exitCode}"

end LaunchError

/-- What carries out commands. It is told the commands launched before, and may change files
whether it succeeds or not. -/
abbrev Launcher := (earlier : List Command) → Command → Disk → Except LaunchError Unit × Disk

/-- The build tool, named by its program. -/
structure BuildTool where
  program : String
  deriving DecidableEq

namespace BuildTool

/-- The environment variable that names another program. -/
def variableName : String := "RIFT_CMAKE"

def standard : BuildTool := ⟨"cmake"⟩

/-- The tool that the value of the environment variable asks for. An empty value asks for none. -/
def ofVariable : Option String → BuildTool
  | some program => if program = "" then standard else ⟨program⟩
  | none => standard

/-- The command that sets up a build folder for sources. -/
def configure (t : BuildTool) (source build : Path) (mode : String) : Command :=
  ⟨t.program, ["-S", source.toText, "-B", build.toText, "-DCMAKE_BUILD_TYPE=" ++ mode]⟩

/-- The command that builds what a build folder was set up for. -/
def build (t : BuildTool) (build : Path) (mode : String) : Command :=
  ⟨t.program, ["--build", build.toText, "--config", mode]⟩

end BuildTool

end ModuleCompiler
