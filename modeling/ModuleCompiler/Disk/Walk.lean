import ModuleCompiler.Disk.Basic

/-!
Walks over a folder: depth first, a folder before what it holds, siblings by name.
-/

namespace ModuleCompiler.Disk

/-- A step of a walk: the path it is reached under, and what is there. -/
structure Visit where
  path : Path
  entry : Entry

/-- The path of what lies at the given names below a path. -/
def descend (p : Path) (names : List (List Char)) : Path :=
  names.foldl (fun q name => q.join ⟨name⟩) p

/-- All entries at or below a folder. Their order is the order of the disk. -/
def walkFrom (d : Disk) (root : Path) (loc : Location) : List Visit :=
  ⟨root, .folder⟩ :: d.entries.filterMap fun (l, e) =>
    if loc.isPrefixOf l && l ≠ loc then some ⟨descend root (l.drop loc.length), e⟩ else none

/-- A folder is listed by its path, which below a long root can be too long for that. -/
def Visit.isUnlistable (v : Visit) : Bool :=
  v.entry = .folder && maxPathBytes < byteLength v.path.chars

/-- Why a walk came to an end, and where. -/
structure WalkError where
  path : Path
  cause : OsError
  deriving DecidableEq

def WalkError.message (e : WalkError) : String :=
  s!"IO error for operation on {e.path.toText}: {e.cause.message}"

/-- The walk from a path, if it leads to something. -/
def walk (d : Disk) (root : Path) : Except WalkError (List Visit) :=
  match d.resolve root with
  | .error e => .error ⟨root, e⟩
  | .ok (.absent _ _) => .error ⟨root, .notFound⟩
  | .ok (.present _ (.file bytes)) => .ok [⟨root, .file bytes⟩]
  | .ok (.present loc .folder) =>
    match (d.walkFrom root loc).find? Visit.isUnlistable with
    | some v => .error ⟨v.path, .nameTooLong⟩
    | none => .ok (d.walkFrom root loc)

end ModuleCompiler.Disk
