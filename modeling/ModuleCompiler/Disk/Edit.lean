import ModuleCompiler.Disk.Basic

/-!
Changes to a file system. A request that fails keeps what it had already changed.
-/

namespace ModuleCompiler.Disk

/-- A change that may be refused part way. -/
abbrev Action := EStateM OsError Disk

/-- The disk with one more folder, inside one that exists. -/
def withFolder (d : Disk) (p : Path) : Except OsError Disk :=
  match d.resolveEntry p with
  | .ok (.absent folder name) => .ok (d.put (folder ++ [name]) .folder)
  | .ok (.present _ _) => .error .alreadyExists
  | .error e => .error e

/-- Makes a folder, or leaves the one that is there. -/
def ensureFolder (p : Path) : Action Unit := fun d =>
  match d.withFolder p with
  | .ok made => .ok () made
  | .error e => if d.isFolder p then .ok () d else .error e d

/-- Makes a folder and the ancestors it lacks. The empty path asks for nothing. -/
def makeFolders (p : Path) : Action Unit := fun d =>
  if p.isEmpty then .ok () d
  else match d.withFolder p with
    | .ok made => .ok () made
    | .error .notFound =>
      match h : p.parent with
      | some q =>
        have := Path.length_parent_lt h
        match makeFolders q d with
        | .ok _ made => ensureFolder p made
        | .error e made => .error e made
      | none => .error .notFound d
    | .error e => if d.isFolder p then .ok () d else .error e d
termination_by p.chars.length

/-- Writes a file, replacing the one that is there. -/
def writeFile (p : Path) (bytes : ByteArray) : Action Unit := do
  match (← get).resolveEntry p with
  | .ok (.absent folder name) =>
    if p.chars.getLast? = some '/' then throw .isFolder
    else modify (·.put (folder ++ [name]) (.file bytes))
  | .ok (.present loc (.file _)) =>
    if p.chars.getLast? = some '/' then throw .isFolder
    else modify (·.put loc (.file bytes))
  | .ok (.present _ .folder) => throw .isFolder
  | .error e => throw e

/-- Writes a text file and makes the folders it lies in. -/
def saveText (p : Path) (text : String) : Action Unit := do
  match p.parent with
  | some folder => makeFolders folder
  | none => pure ()
  writeFile p text.toUTF8

/-- Removes an emptied folder, named by a path that must not end in a dot. -/
def dropEmptied (p : Path) (loc : Location) : Action Unit := do
  let ps := trimSlashes (Path.pieces p.chars)
  match ps.getLast? with
  | some ['.'] => throw .invalidArgument
  | some ['.', '.'] =>
    match follow (← get) [] .folder ps.dropLast with
    | .ok (.present _ .folder) => throw .notEmpty
    | .ok (.present _ (.file _)) => throw .notFolder
    | .ok (.absent _ _) => throw .notFound
    | .error e => throw e
  | _ => modify (·.erase loc)

/-- Removes a folder with everything in it. -/
def removeFolder (p : Path) : Action Unit := do
  match (← get).resolve p with
  | .ok (.present loc .folder) =>
    modify fun d => ⟨d.entries.filter fun (l, _) => l = loc || !loc.isPrefixOf l⟩
    dropEmptied p loc
  | .ok (.present _ (.file _)) => throw .notFolder
  | .ok (.absent _ _) => throw .notFound
  | .error e => throw e

end ModuleCompiler.Disk
