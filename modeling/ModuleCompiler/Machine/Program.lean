import ModuleCompiler.Disk.Edit

/-!
The small standard programs: those that answer with a status, print, and make files or folders.
-/

namespace ModuleCompiler.Program

/-- How a program ends: its status, what it printed, and the files it leaves. -/
structure Result where
  status : Nat
  output : String
  disk : Disk

/-- The text of a format whose marks for texts are filled in order, with its escapes read. -/
def formatted : List Char → List String → List Char
  | '\\' :: 'n' :: rest, args => '\n' :: formatted rest args
  | '\\' :: 't' :: rest, args => '\t' :: formatted rest args
  | '\\' :: '\\' :: rest, args => '\\' :: formatted rest args
  | '%' :: '%' :: rest, args => '%' :: formatted rest args
  | '%' :: 's' :: rest, arg :: args => arg.toList ++ formatted rest args
  | '%' :: 's' :: rest, [] => formatted rest []
  | c :: rest, args => c :: formatted rest args
  | [], _ => []

/-- Prints files one after the other; the status tells whether all could be read. -/
def concatenate (d : Disk) (files : List String) : Result :=
  files.foldl
    (fun r file =>
      match d.readText (Path.ofString file) with
      | .ok text => { r with output := r.output ++ text }
      | .error _ => { r with status := 1 })
    ⟨0, "", d⟩

/-- Makes one change per argument; the status tells whether all succeeded. -/
def each (change : Path → Disk.Action Unit) (d : Disk) (args : List String) : Result :=
  args.foldl
    (fun r arg =>
      match change (Path.ofString arg) r.disk with
      | .ok _ changed => { r with disk := changed }
      | .error _ changed => { r with disk := changed, status := 1 })
    ⟨0, "", d⟩

/-- Makes a file unless something is there already. -/
def touch (path : Path) : Disk.Action Unit := do
  if ((← get).entryNamed? path).isSome then pure () else Disk.writeFile path ByteArray.empty

/-- Makes one folder. -/
def makeOne (path : Path) : Disk.Action Unit := fun d =>
  match d.withFolder path with
  | .ok made => .ok () made
  | .error e => .error e d

/-- Runs the program of a name, if there is one. -/
def run? (name : String) (args : List String) (d : Disk) : Option Result :=
  match name, args with
  | "true", _ => some ⟨0, "", d⟩
  | "false", _ => some ⟨1, "", d⟩
  | "echo", words => some ⟨0, String.intercalate " " words ++ "\n", d⟩
  | "printf", format :: args => some ⟨0, String.ofList (formatted format.toList args), d⟩
  | "printf", [] => some ⟨2, "", d⟩
  | "cat", files => some (concatenate d files)
  | "touch", files => some (each touch d files)
  | "mkdir", "-p" :: folders => some (each Disk.makeFolders d folders)
  | "mkdir", folders => some (each makeOne d folders)
  | _, _ => none

end ModuleCompiler.Program
