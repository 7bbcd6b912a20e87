import ModuleCompiler.Disk.Edit
import ModuleCompiler.Disk.Walk

/-!
Whole folders: deleting, making, emptying and copying them. None of these is undone when it fails
part way.
-/

namespace ModuleCompiler

/-- Why an operation on a folder failed. -/
inductive FolderError where
  | missing (path : Path)
  | delete (path : Path) (cause : OsError)
  | create (path : Path) (cause : OsError)
  | copy (source target : Path) (cause : OsError)
  | walk (path : Path) (cause : Disk.WalkError)
  deriving DecidableEq

def FolderError.message : FolderError → String
  | .missing p => s!"'{p.toText}' does not exist"
  | .delete p e => s!"couldn't delete '{p.toText}': {e.message}"
  | .create p e => s!"couldn't create '{p.toText}': {e.message}"
  | .copy p q e => s!"couldn't copy '{p.toText}' to '{q.toText}': {e.message}"
  | .walk p e => s!"couldn't read '{p.toText}': {e.message}"

namespace Disk

abbrev FolderAction := EStateM FolderError Disk

/-- Names the folder operation that a refused change was part of. -/
def Action.within {α : Type} (action : Action α) (reason : OsError → FolderError) :
    FolderAction α := fun d =>
  match action d with
  | .ok a changed => .ok a changed
  | .error e changed => .error (reason e) changed

/-- Deletes a folder; one that is not there counts as deleted. -/
def deleteFolder (p : Path) : FolderAction Unit := fun d =>
  match removeFolder p d with
  | .ok _ changed => .ok () changed
  | .error .notFound changed => .ok () changed
  | .error e changed => .error (.delete p e) changed

def createFolder (p : Path) : FolderAction Unit := (makeFolders p).within (.create p)

/-- Leaves an empty folder behind. -/
def recreateFolder (p : Path) : FolderAction Unit := do
  deleteFolder p
  createFolder p

/-- The bytes of a file, in the course of a change. -/
def readFile (p : Path) : Action ByteArray := fun d =>
  match d.read p with
  | .ok bytes => .ok bytes d
  | .error e => .error e d

/-- Fills one file from another. A source that cannot be read leaves the target alone; else the
target is emptied before it is filled, so a file copied onto itself is lost. -/
def fillFrom (source target : Path) : Action Unit := do
  discard (readFile source)
  writeFile target ByteArray.empty
  writeFile target (← readFile source)

def copyFile (source target : Path) : FolderAction Unit :=
  (fillFrom source target).within (.copy source target)

/-- Refuses to go on through a folder that is too long a way from the root of a copy. -/
def checkListable (root source : Path) : FolderAction Unit :=
  if maxPathBytes < byteLength source.chars then throw (.walk root ⟨source, .nameTooLong⟩)
  else pure ()

/-- Copies the entry at `loc`, reached as `source`, to `target`. What a folder holds is listed
before its copy is made. Every level makes the target's path longer, and a path has a greatest
length, so that many levels are enough. -/
def copyEntry (root : Path) : Nat → Path → Location → Path → FolderAction Unit
  | 0, _, _, target => throw (.create target .nameTooLong)
  | level + 1, source, loc, target => do
    let d ← get
    match d.entryAt? loc with
    | some .folder =>
      createFolder target
      checkListable root source
      (d.list loc).forM fun (name, _) =>
        copyEntry root level (source.join ⟨name⟩) (loc ++ [name]) (target.join ⟨name⟩)
    | _ => copyFile source target

/-- Lays the contents of one folder over another. -/
def copyFolder (source target : Path) : FolderAction Unit := do
  match (← get).resolve source with
  | .ok (.present loc .folder) => copyEntry source maxPathBytes source loc (target.join Path.empty)
  | _ => throw (.missing source)

end Disk

end ModuleCompiler
