import ModuleCompiler.Disk.Folder
import ModuleCompiler.Entity
import ModuleCompiler.Toolchain

/-!
The stages of a build and what can go wrong in them.
-/

namespace ModuleCompiler

inductive Stage where
  | prepare
  | codeGeneration
  | descriptorGeneration
  | compilation
  | artifactCopy
  deriving DecidableEq

inductive Diagnostic where
  | other (text : String)
  | headerNotSaved (file : Path) (cause : OsError)
  | sourceNotSaved (file : Path) (cause : OsError)
  | descriptorNotSaved (file : Path) (cause : OsError)
  | nothingToDescribe
  | namelessModule (id : Entity)
  | duplicateModule (name : String)
  | nothingToBuild
  | binariesNotCleaned (cause : FolderError)
  | codeNotPrepared (cause : FolderError)
  | buildFolderNotMade (cause : FolderError)
  | configurationFailed (cause : LaunchError)
  | buildFailed (cause : LaunchError)
  | codeNotCopied (cause : FolderError)
  | moduleNotCopied (name : String) (cause : FolderError)
  /-- The last word on a stage after which the build does not go on. -/
  | stageFailed (stage : Stage)
  deriving DecidableEq

namespace Diagnostic

/-- The summary of a failed stage. A build that fails in the first stage ends without one. -/
def summary : Stage → String
  | .prepare => "Failed to prepare the build"
  | .codeGeneration => "Failed to generate C++ code"
  | .descriptorGeneration => "Failed to generate cmake files"
  | .compilation => "Compilation failed while building C++ code"
  | .artifactCopy => "Failed to copy build artifacts"

def message : Diagnostic → String
  | .other text => text
  | .headerNotSaved p e => s!"Couldn't save generated header at '{p.toText}': {e.message}"
  | .sourceNotSaved p e => s!"Couldn't save generated source at '{p.toText}': {e.message}"
  | .descriptorNotSaved p e => s!"Couldn't save build descriptor at '{p.toText}': {e.message}"
  | .nothingToDescribe => "No project module to generate build files for"
  | .namelessModule id => s!"Module {id.render} has no name"
  | .duplicateModule name => s!"Duplicate module name '{name}'"
  | .nothingToBuild => "No existing project to build"
  | .binariesNotCleaned e => s!"Couldn't clean binaries folder: {e.message}"
  | .codeNotPrepared e => s!"Couldn't prepare code folder: {e.message}"
  | .buildFolderNotMade e => s!"Couldn't create build folder: {e.message}"
  | .configurationFailed e => s!"Failed to generate cmake code: {e.message}"
  | .buildFailed e => s!"C++ build failed: {e.message}"
  | .codeNotCopied e => s!"Failed to copy code: {e.message}"
  | .moduleNotCopied name e => s!"Failed to copy binaries of module '{name}': {e.message}"
  | .stageFailed stage => summary stage

end Diagnostic

end ModuleCompiler
