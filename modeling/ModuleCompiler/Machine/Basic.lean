import ModuleCompiler.Machine.Shell
import ModuleCompiler.Toolchain

/-!
The machine that commands run on when no build tool is installed: a handful of standard programs,
and the rules by which a program is found.
-/

namespace ModuleCompiler.Machine

/-- The names of the programs on the search path. -/
def programs : List String := ["sh", "true", "false", "echo", "printf", "cat", "touch", "mkdir"]

/-- The folders of the search path. -/
def searchPath : List String := ["/usr/local/bin/", "/usr/bin/", "/bin/"]

/-- The program that a path into the search path names. -/
def programAt? (path : String) : Option String :=
  programs.find? fun name => searchPath.any (· ++ name == path)

/-- Finds the program that a command names, or says why it cannot be started. A name with a slash
is a path; none of the files on the disk can be executed. -/
def locate (d : Disk) (program : String) : Except OsError String :=
  if program.toList.contains '/' then
    match programAt? program with
    | some p => .ok p
    | none =>
      match d.resolve (Path.ofString program) with
      | .ok (.present _ _) => .error .accessDenied
      | .ok (.absent _ _) => .error .notFound
      | .error e => .error e
  else if Disk.maxNameBytes < Disk.byteLength program.toList then .error .nameTooLong
  else if program ∈ programs then .ok program
  else .error .notFound

/-- Runs the shell with its arguments. -/
def runShell (args : List String) (d : Disk) : Nat × Disk :=
  match args with
  | [] => (0, d)
  | "-c" :: [] => (2, d)
  | "-c" :: script :: [] => Shell.run script.toList ["sh"] d
  | "-c" :: script :: parameters => Shell.run script.toList parameters d
  | file :: parameters =>
    match d.readText (Path.ofString file) with
    | .ok script => Shell.run script.toList (file :: parameters) d
    | .error _ => (2, d)

/-- Runs a program: the status it ends with and the files it leaves. -/
def runProgram (name : String) (args : List String) (d : Disk) : Nat × Disk :=
  match Program.run? name args d with
  | some result => (result.status, result.disk)
  | none => runShell args d

def hasNul (text : String) : Bool := text.toList.contains (Char.ofNat 0)

/-- Launches a command on the machine. -/
def launch : Launcher := fun _ command d =>
  if hasNul command.program || command.args.any hasNul then
    (.error (.notStarted command.program "nul byte found in provided data"), d)
  else match locate d command.program with
    | .error .notFound => (.error (.notFound command.program OsError.notFound.message), d)
    | .error e => (.error (.notStarted command.program e.message), d)
    | .ok p =>
      let (status, disk) := runProgram p command.args d
      if status = 0 then (.ok (), disk)
      else (.error (.failed command.render (some status) ""), disk)

end ModuleCompiler.Machine
