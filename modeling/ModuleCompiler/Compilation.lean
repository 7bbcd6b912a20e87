import ModuleCompiler.Diagnostic

/-!
One run of the compiler: where it writes, and the diagnostics it has collected.
-/

namespace ModuleCompiler

def defaultBuildMode : String := "Release"

structure Config where
  intermediates : Path
  binaries : Path
  mode : String
  deriving DecidableEq

namespace Config

/-- The folders of a project, inside its own folder. -/
def ofProject (folder : Path) : Config :=
  ⟨folder.child "Intermediates", folder.child "Binaries", defaultBuildMode⟩

/-- Where the generated code goes. -/
def code (c : Config) : Path := c.intermediates.child "Code"

/-- Where the code is built. -/
def cmake (c : Config) : Path := c.intermediates.child "CMake"

end Config

structure Compilation where
  config : Config
  diagnostics : List Diagnostic
  deriving DecidableEq

namespace Compilation

def new (config : Config) : Compilation := ⟨config, []⟩

def hasErrors (c : Compilation) : Bool := !c.diagnostics.isEmpty

def report (c : Compilation) (d : Diagnostic) : Compilation :=
  { c with diagnostics := c.diagnostics ++ [d] }

end Compilation

end ModuleCompiler
