import ModuleCompiler.CommandLine
import ModuleCompiler.Machine.Basic

/-!
The program: it reads the folder it is started in, runs the command line on it, and puts what has
changed back into the folder.
-/

namespace ModuleCompiler.Main

/-- What lies in a folder and in all folders below it, each under its names. -/
partial def readEntries (loc : Location) (found : Array IO.FS.DirEntry) :
    IO (List (Location × Entry)) := do
  let mut entries := []
  for e in found do
    let inside := loc ++ [e.fileName.toList]
    if ← e.path.isDir then
      entries := entries ++ (inside, .folder) :: (← readEntries inside (← e.path.readDir))
    else
      entries := entries ++ [(inside, .file (← IO.FS.readBinFile e.path))]
  return entries

def diskOf (entries : List (Location × Entry)) : Disk :=
  entries.foldl (fun d (loc, e) => d.put loc e) Disk.empty

def nameOf (loc : Location) : String := String.intercalate "/" (loc.map String.ofList)

/-- Takes away what is gone or has turned from a file into a folder or back. -/
def removeEntries (before after : Disk) : IO Unit := do
  for (loc, e) in before.entries.reverse do
    match e, after.entryAt? loc with
    | .file _, some (.file _) => pure ()
    | .file _, _ => IO.FS.removeFile (nameOf loc)
    | .folder, some .folder => pure ()
    | .folder, _ => IO.FS.removeDir (nameOf loc)

/-- Writes what is new or different. -/
def writeEntries (before after : Disk) : IO Unit := do
  for (loc, e) in after.entries do
    if before.entryAt? loc ≠ some e then
      match e with
      | .folder => IO.FS.createDirAll (nameOf loc)
      | .file bytes => IO.FS.writeBinFile (nameOf loc) bytes

/-- Runs the program and answers the code it ends with. Only a build looks at files. -/
def run (args : List String) : IO UInt32 := do
  let before ←
    if args.head? = some "build" then
      diskOf <$> readEntries [] (← (← IO.currentDir).readDir)
    else pure Disk.empty
  let tool := BuildTool.ofVariable (← IO.getEnv BuildTool.variableName)
  let outcome := CommandLine.run Machine.launch tool before args
  removeEntries before outcome.disk
  writeEntries before outcome.disk
  IO.print outcome.output
  IO.eprint outcome.errorOutput
  return outcome.code.toUInt32

end ModuleCompiler.Main

def main (args : List String) : IO UInt32 := ModuleCompiler.Main.run args
