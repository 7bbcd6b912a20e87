import ModuleCompiler.Component
import ModuleCompiler.Writer

/-!
The build descriptors of the generated code: one that names the project and its modules, and one
per module with a single target. Every target puts its output into a folder named for the build
mode, whatever tool builds it.
-/

namespace ModuleCompiler.Descriptor

def fileName : String := "CMakeLists.txt"

/-- The descriptor of the whole project. -/
def root (project : String) (modules : List String) : String :=
  let w := Writer.empty.line "cmake_minimum_required (VERSION 3.12)"
  let w := (w.line s!"project({project} VERSION 0.1 LANGUAGES CXX)").blank
  (w.lines (modules.map fun name => s!"add_subdirectory({name})")).text

def targetLine (name : String) : ModuleTarget → String
  | .executable => s!"add_executable({name})"
  | .sharedLibrary => s!"add_library({name} SHARED)"
  | .staticLibrary => s!"add_library({name} STATIC)"

def outputLine (kind : String) : String :=
  kind ++ "_OUTPUT_DIRECTORY $\x7bCMAKE_CURRENT_BINARY_DIR\x7d/$<CONFIG>"

/-- The descriptor of one module. -/
def module (name : String) (target : ModuleTarget) : Except Fault String := do
  let w := Writer.empty.line (targetLine name target)
  let w := w.line s!"set_target_properties ({name} PROPERTIES CXX_STANDARD 20)"
  let w := w.line s!"set_target_properties ({name} PROPERTIES"
  let w := w.indent.lines (["RUNTIME", "LIBRARY", "ARCHIVE"].map outputLine)
  let w ← w.dedent
  let w := w.line ")"
  let w := w.line s!"target_include_directories({name} PUBLIC Include)"
  return (w.line s!"target_sources({name} PRIVATE Src/code.cpp)").text

end ModuleCompiler.Descriptor
