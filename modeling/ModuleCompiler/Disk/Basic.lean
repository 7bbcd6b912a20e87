import ModuleCompiler.Path

/-!
A file system without links, as data: the folders and files below one top folder, each under the
list of names that leads to it, in the order of those lists. A folder therefore stands before what
it holds and siblings are ordered by name. Relative and rooted paths both start at the top folder,
and going up from it stays there.
-/

namespace ModuleCompiler

/-- The names that lead from the top folder to an entry. -/
abbrev Location := List (List Char)

inductive Entry where
  | folder
  | file (bytes : ByteArray)

instance : DecidableEq Entry
  | .folder, .folder => .isTrue rfl
  | .folder, .file _ => .isFalse nofun
  | .file _, .folder => .isFalse nofun
  | .file a, .file b =>
    match ByteArray.instDecidableEq a b with
    | .isTrue h => .isTrue (congrArg Entry.file h)
    | .isFalse h => .isFalse fun e => h (Entry.file.inj e)

/-- Why the file system refuses a request. -/
inductive OsError where
  | notFound
  | accessDenied
  | alreadyExists
  | notFolder
  | isFolder
  | invalidArgument
  | nameTooLong
  | notEmpty
  | nulInName
  | notUtf8
  deriving DecidableEq

def OsError.message : OsError → String
  | .notFound => "No such file or directory (os error 2)"
  | .accessDenied => "Permission denied (os error 13)"
  | .alreadyExists => "File exists (os error 17)"
  | .notFolder => "Not a directory (os error 20)"
  | .isFolder => "Is a directory (os error 21)"
  | .invalidArgument => "Invalid argument (os error 22)"
  | .nameTooLong => "File name too long (os error 36)"
  | .notEmpty => "Directory not empty (os error 39)"
  | .nulInName => "file name contained an unexpected NUL byte"
  | .notUtf8 => "stream did not contain valid UTF-8"

structure Disk where
  entries : List (Location × Entry)

namespace Disk

def empty : Disk := ⟨[]⟩

def lookup (loc : Location) : List (Location × Entry) → Option Entry
  | [] => none
  | (l, e) :: rest => if l = loc then some e else lookup loc rest

/-- The entry at a location; the top folder is always there. -/
def entryAt? (d : Disk) (loc : Location) : Option Entry :=
  if loc = [] then some .folder else lookup loc d.entries

def place (loc : Location) (e : Entry) : List (Location × Entry) → List (Location × Entry)
  | [] => [(loc, e)]
  | (l, x) :: rest =>
    if loc = l then (loc, e) :: rest
    else if loc < l then (loc, e) :: (l, x) :: rest
    else (l, x) :: place loc e rest

/-- The disk with an entry added or replaced. -/
def put (d : Disk) (loc : Location) (e : Entry) : Disk := ⟨place loc e d.entries⟩

/-- The disk without what lies at or below a location. -/
def erase (d : Disk) (loc : Location) : Disk :=
  ⟨d.entries.filter fun (l, _) => !loc.isPrefixOf l⟩

/-- The names and entries directly inside a folder, in order. -/
def list (d : Disk) (loc : Location) : List (List Char × Entry) :=
  d.entries.filterMap fun (l, e) =>
    match l.getLast? with
    | some name => if l.dropLast = loc then some (name, e) else none
    | none => none

/-- The most bytes a name may take. -/
def maxNameBytes : Nat := 255

/-- The most bytes a path may take. -/
def maxPathBytes : Nat := 4095

/-- The number of bytes that a text takes. -/
def byteLength : List Char → Nat
  | [] => 0
  | c :: cs => c.utf8Size + byteLength cs

/-- What a path leads to. -/
inductive Target where
  /-- An entry that exists. -/
  | present (loc : Location) (entry : Entry)
  /-- A name that an existing folder does not hold. -/
  | absent (folder : Location) (name : List Char)
  deriving DecidableEq

/-- Follows the pieces of a path from an entry. Every piece but the last must lead to something,
and only a folder can be gone through. -/
def follow (d : Disk) (loc : Location) (entry : Entry) : List (List Char) → Except OsError Target
  | [] => .ok (.present loc entry)
  | piece :: rest =>
    match entry with
    | .file _ => .error .notFolder
    | .folder =>
      if piece = [] || piece = ['.'] then follow d loc .folder rest
      else if piece = ['.', '.'] then follow d loc.dropLast .folder rest
      else if maxNameBytes < byteLength piece then .error .nameTooLong
      else match d.entryAt? (loc ++ [piece]) with
        | some e => follow d (loc ++ [piece]) e rest
        | none => if rest.all (· = []) then .ok (.absent loc piece) else .error .notFound

/-- Refuses the texts that no request accepts as a path. -/
def checkPath (p : Path) : Except OsError Unit :=
  if p.chars.contains (Char.ofNat 0) then .error .nulInName
  else if p.isEmpty then .error .notFound
  else if maxPathBytes < byteLength p.chars then .error .nameTooLong
  else .ok ()

def resolve (d : Disk) (p : Path) : Except OsError Target := do
  checkPath p
  follow d [] .folder (Path.pieces p.chars)

/-- The pieces of a path without the slashes at its end. -/
def trimSlashes (ps : List (List Char)) : List (List Char) :=
  (ps.reverse.dropWhile (· = [])).reverse

/-- Like `resolve`, for requests that put up with slashes at the end. -/
def resolveEntry (d : Disk) (p : Path) : Except OsError Target := do
  checkPath p
  follow d [] .folder (trimSlashes (Path.pieces p.chars))

/-- The entry a path names, if it can be reached. -/
def entryNamed? (d : Disk) (p : Path) : Option Entry :=
  match d.resolve p with
  | .ok (.present _ e) => some e
  | _ => none

def isFolder (d : Disk) (p : Path) : Bool := d.entryNamed? p = some .folder

def isFile (d : Disk) (p : Path) : Bool :=
  match d.entryNamed? p with
  | some (.file _) => true
  | _ => false

/-- The bytes of the file a path names. -/
def read (d : Disk) (p : Path) : Except OsError ByteArray := do
  match ← d.resolve p with
  | .present _ (.file bytes) => .ok bytes
  | .present _ .folder => .error .isFolder
  | .absent _ _ => .error .notFound

/-- The text of the file a path names. -/
def readText (d : Disk) (p : Path) : Except OsError String := do
  match String.fromUTF8? (← d.read p) with
  | some text => .ok text
  | none => .error .notUtf8

end Disk

end ModuleCompiler
