import ModuleCompiler.Proofs.Edits
import ModuleCompiler.Proofs.Generate
import ModuleCompiler.Proofs.Opening

/-!
Opening a project again. What opening reads of a disk are the files with the names of sources, and
it goes through the folders to find them. A project therefore opens on two disks with the same
sources to the same tree, as long as its own path leads to it and all folders below can be listed.
-/

namespace ModuleCompiler.Project

variable {d d' : Disk} {path root projectFile : Path} {loc l : Location} {ast : Ast}
  {names : List (List Char)} {bytes : ByteArray}

/-- A name that a source file has: that of a module file or of a type file. -/
def isSourceName (name : List Char) : Bool :=
  name = moduleFileName.toList || (Path.splitAtDot name).2 = some typeExtension.toList

/-- A place whose name is that of a source file. -/
def IsSource (l : Location) : Prop := ∃ name, l.getLast? = some name ∧ isSourceName name = true

instance (l : Location) : Decidable (IsSource l) :=
  decidable_of_iff (l.getLast?.any isSourceName = true) (by simp [IsSource, Option.any_eq_true])

/-- Two disks with the same source files. -/
def SameSources (d d' : Disk) : Prop :=
  ∀ l, IsSource l → ∀ bytes,
    d'.entryAt? l = some (.file bytes) ↔ d.entryAt? l = some (.file bytes)

/-- The folder from which a project is gone through, as opening spells it. -/
def scanRoot (path : Path) : Path := folderOf (path.child moduleFileName)

/-- Every folder below a project can be listed by its path. -/
def Listable (d : Disk) (path : Path) : Prop :=
  ∀ names, names ≠ [] → d.entryAt? (path.place ++ names) = some .folder →
    Disk.byteLength (Disk.descend (scanRoot path) names).chars ≤ Disk.maxPathBytes

theorem isSource_append (hne : names ≠ []) : IsSource (loc ++ names) ↔ IsSource names := by
  unfold IsSource
  rw [List.getLast?_append_of_ne_nil _ hne]

theorem fileName_descend (hne : names ≠ []) (hnames : ∀ name ∈ names, Path.IsName name) :
    (Disk.descend root names).fileName = names.getLast? := by
  obtain ⟨init, last, rfl⟩ := (List.eq_nil_or_concat' names).resolve_left hne
  rw [Path.fileName, Disk.parts_descend hnames, List.map_append, ← List.append_assoc]
  simp

/-- The files that are loaded have the names of sources. -/
theorem isSource_of_loaded (hne : names ≠ []) (hnames : ∀ name ∈ names, Path.IsName name)
    (h : isModuleFile (Disk.descend root names) = true ∨
      isTypeFile (Disk.descend root names) = true) : IsSource names := by
  obtain ⟨init, last, rfl⟩ := (List.eq_nil_or_concat' names).resolve_left hne
  refine ⟨last, by simp, ?_⟩
  have hfile : (Disk.descend root (init ++ [last])).fileName = some last := by
    rw [fileName_descend hne hnames, List.getLast?_concat]
  rcases h with h | h
  · have heq := of_decide_eq_true h
    rw [hfile] at heq
    simp [isSourceName, Option.some.inj heq]
  · simp only [isTypeFile, Path.extension, hfile, Option.bind_some, Bool.and_eq_true,
      decide_eq_true_eq] at h
    simp [isSourceName, h.2]

theorem mem_filesBelow_iff (hd : d.IsDirectory) :
    (names, bytes) ∈ d.filesBelow loc ↔
      names ≠ [] ∧ d.entryAt? (loc ++ names) = some (.file bytes) := by
  rw [Disk.mem_filesBelow, Disk.mem_below]
  refine and_congr_right fun hne => ?_
  exact (hd.entryAt?_iff (List.append_ne_nil_of_right_ne_nil _ hne)).symm

theorem mem_foldersBelow_iff (hd : d.IsDirectory) :
    names ∈ d.foldersBelow loc ↔ names ≠ [] ∧ d.entryAt? (loc ++ names) = some .folder := by
  have hmem : names ∈ d.foldersBelow loc ↔ (names, .folder) ∈ d.below loc := by
    unfold Disk.foldersBelow
    rw [List.mem_filterMap]
    constructor
    · rintro ⟨⟨other, e⟩, hin, hfound⟩
      simp only at hfound
      split at hfound
      · rename_i hfolder
        rwa [hfolder, Option.some.inj hfound] at hin
      · cases hfound
    · intro hin
      exact ⟨_, hin, by simp⟩
  rw [hmem, Disk.mem_below]
  refine and_congr_right fun hne => ?_
  exact (hd.entryAt?_iff (List.append_ne_nil_of_right_ne_nil _ hne)).symm

/-- Of the files below a folder, those with the names of sources are the same. -/
theorem filter_filesBelow_eq (hd : d.IsDirectory) (hd' : d'.IsDirectory) (h : SameSources d d')
    (loc : Location) {keep : List (List Char) × ByteArray → Bool}
    (hkeep : ∀ names bytes, names ≠ [] → (∀ name ∈ names, Path.IsName name) →
      keep (names, bytes) = true → IsSource names) :
    (d'.filesBelow loc).filter keep = (d.filesBelow loc).filter keep := by
  refine Disk.eq_of_sorted ((hd'.sorted_filesBelow loc).filter _)
    ((hd.sorted_filesBelow loc).filter _) ?_
  rintro ⟨names, bytes⟩
  rw [List.mem_filter, List.mem_filter, mem_filesBelow_iff hd, mem_filesBelow_iff hd']
  have hsource : ∀ {c : Disk}, c.IsDirectory → names ≠ [] → keep (names, bytes) = true →
      c.entryAt? (loc ++ names) = some (.file bytes) → IsSource (loc ++ names) := by
    intro c hc hne hkept hentry
    refine (isSource_append hne).mpr (hkeep names bytes hne (fun name hname => ?_) hkept)
    exact (hc.names hentry name (List.mem_append_right _ hname)).1
  constructor
  · rintro ⟨⟨hne, hentry⟩, hkept⟩
    exact ⟨⟨hne, (h _ (hsource hd' hne hkept hentry) bytes).mp hentry⟩, hkept⟩
  · rintro ⟨⟨hne, hentry⟩, hkept⟩
    exact ⟨⟨hne, (h _ (hsource hd hne hkept hentry) bytes).mpr hentry⟩, hkept⟩

/-- The other files of a project, as a scan finds them. -/
def found (d : Disk) (root : Path) (loc : Location) : List Path :=
  (otherFilesBelow d loc).map (Disk.descend root ·.1)

theorem filter_found_eq (hd : d.IsDirectory) (hd' : d'.IsDirectory) (h : SameSources d d')
    {test : Path → Bool}
    (htest : ∀ file, test file = true → isModuleFile file = true ∨ isTypeFile file = true) :
    (found d' root loc).filter test = (found d root loc).filter test := by
  unfold found otherFilesBelow
  rw [List.filter_map, List.filter_map, List.filter_filter, List.filter_filter]
  congr 1
  refine filter_filesBelow_eq hd hd' h loc fun names bytes hne hnames hkept => ?_
  simp only [Function.comp_apply, Bool.and_eq_true] at hkept
  exact isSource_of_loaded hne hnames (htest _ hkept.1)

theorem moduleFiles_found_eq (hd : d.IsDirectory) (hd' : d'.IsDirectory) (h : SameSources d d') :
    moduleFiles (found d' root loc) = moduleFiles (found d root loc) := by
  unfold moduleFiles
  rw [filter_found_eq hd hd' h fun _ => Or.inl]

theorem typeFiles_found_eq (hd : d.IsDirectory) (hd' : d'.IsDirectory) (h : SameSources d d') :
    typeFiles (found d' root loc) = typeFiles (found d root loc) :=
  filter_found_eq hd hd' h fun _ => Or.inr

/-- A file that is loaded reads the same. -/
theorem read_eq_of_found (hd : d.IsDirectory) (hd' : d'.IsDirectory) (h : SameSources d d')
    (hroot : d.resolve root = .ok (.present loc .folder))
    (hroot' : d'.resolve root = .ok (.present loc .folder)) {file : Path}
    (hfile : file ∈ found d root loc)
    (hloaded : isModuleFile file = true ∨ isTypeFile file = true) :
    d'.read file = d.read file := by
  obtain ⟨⟨names, bytes⟩, hx, rfl⟩ := List.mem_map.mp hfile
  have hkept : (names, bytes) ∈ otherFilesBelow d' loc := by
    obtain ⟨hbelow, hother⟩ := List.mem_filter.mp hx
    obtain ⟨hne, hentry⟩ := (mem_filesBelow_iff hd).mp hbelow
    have hnames : ∀ name ∈ names, Path.IsName name := fun name hname =>
      (hd.names hentry name (List.mem_append_right _ hname)).1
    have hsource : IsSource (loc ++ names) :=
      (isSource_append hne).mpr (isSource_of_loaded hne hnames hloaded)
    exact List.mem_filter.mpr
      ⟨(mem_filesBelow_iff hd').mpr ⟨hne, (h _ hsource bytes).mpr hentry⟩, hother⟩
  exact (stands_descend hd' hroot' hkept).trans (stands_descend hd hroot hx).symm

theorem describeModule_congr {file : Path} (h : d'.read file = d.read file) :
    describeModule d' file = describeModule d file := by
  simp only [describeModule, readText, Disk.readText, h]

theorem describeType_congr {file : Path} (h : d'.read file = d.read file) :
    describeType d' file = describeType d file := by
  simp only [describeType, readText, Disk.readText, h]

theorem loadModules_congr {project : Entity} {files : List Path}
    (h : ∀ file ∈ files, d'.read file = d.read file) (modules : List (Entity × Path)) :
    loadModules d' project modules files = loadModules d project modules files := by
  induction files generalizing modules with
  | nil => rfl
  | cons file rest ih =>
    simp only [loadModules, loadModule, describeModule_congr (h file (by simp)),
      ih fun other hother => h other (by simp [hother])]

theorem loadTypes_congr {project : Entity} {modules : List (Entity × Path)} {files : List Path}
    (h : ∀ file ∈ files, d'.read file = d.read file) :
    files.forM (loadType d' project modules) = files.forM (loadType d project modules) := by
  induction files with
  | nil => rfl
  | cons file rest ih =>
    have hfirst : loadType d' project modules file = loadType d project modules file := by
      simp only [loadType, describeType_congr (h file (by simp))]
    show (loadType d' project modules file >>= fun _ => rest.forM (loadType d' project modules)) =
      (loadType d project modules file >>= fun _ => rest.forM (loadType d project modules))
    rw [hfirst, ih fun other hother => h other (by simp [hother])]

/-- Loading is determined by the files that are loaded and by what they say. -/
theorem load_congr {files files' : List Path}
    (hproject : d'.read projectFile = d.read projectFile)
    (hscan : scan d (folderOf projectFile) projectFile = .ok files)
    (hscan' : scan d' (folderOf projectFile) projectFile = .ok files')
    (hmodules : moduleFiles files' = moduleFiles files)
    (htypes : typeFiles files' = typeFiles files)
    (hread : ∀ file ∈ files, isModuleFile file = true ∨ isTypeFile file = true →
      d'.read file = d.read file) : load d' projectFile = load d projectFile := by
  have hmodule : ∀ project modules, loadModules d' project modules (moduleFiles files) =
      loadModules d project modules (moduleFiles files) := by
    intro project modules
    refine loadModules_congr (fun file hfile => ?_) modules
    obtain ⟨hin, hname⟩ := List.mem_filter.mp (List.mem_mergeSort.mp hfile)
    exact hread file hin (Or.inl hname)
  have htype : ∀ project modules, (typeFiles files).forM (loadType d' project modules) =
      (typeFiles files).forM (loadType d project modules) := by
    intro project modules
    refine loadTypes_congr fun file hfile => ?_
    obtain ⟨hin, hname⟩ := List.mem_filter.mp hfile
    exact hread file hin (Or.inr hname)
  simp only [load, loadModule, describeModule_congr hproject, hscan, hscan', Loading.ofExcept,
    pure_bind, hmodules, htypes, hmodule, htype]

theorem isName_moduleFileName : Path.IsName moduleFileName.toList := by decide

theorem isModuleFile_child (path : Path) : isModuleFile (path.child moduleFileName) = true := by
  have hparts : (path.child moduleFileName).parts = path.parts ++ [.name moduleFileName.toList] :=
    Path.parts_join isName_moduleFileName
  simp [isModuleFile, Path.fileName, hparts]

theorem parent_moduleFile (path : Path) :
    (path.child moduleFileName).parent = some (scanRoot path) := by
  have hparts : (path.child moduleFileName).parts = path.parts ++ [.name moduleFileName.toList] :=
    Path.parts_join isName_moduleFileName
  obtain ⟨q, hq⟩ := Path.exists_parent (p := path.child moduleFileName)
    (by rw [hparts, List.getLast?_concat])
  rw [scanRoot, folderOf, hq, Option.getD_some]

theorem steps_scanRoot (path : Path) : (scanRoot path).steps = path.steps := by
  have hname : (Path.ofString moduleFileName).steps = [moduleFileName.toList] := by decide
  rw [Path.steps_parent (parent_moduleFile path), Path.child, Path.steps_join (by decide), hname,
    List.dropLast_concat]

theorem place_scanRoot (path : Path) : (scanRoot path).place = path.place := by
  rw [Path.place_eq, Path.place_eq, steps_scanRoot]

theorem scanRoot_ne_nil (h : path.chars ≠ []) : (scanRoot path).chars ≠ [] := by
  intro hnil
  have hparts : (path.child moduleFileName).parts = path.parts ++ [.name moduleFileName.toList] :=
    Path.parts_join isName_moduleFileName
  have hroot := Path.parts_parent (parent_moduleFile path)
  rw [hparts, List.dropLast_concat] at hroot
  refine Path.parts_ne_nil h (hroot.symm.trans ?_)
  unfold Path.parts
  rw [hnil]
  rfl

theorem moduleFileOf_of_isFolder (h : d.isFolder path = true) :
    moduleFileOf d path = path.child moduleFileName := if_pos h

/-- A folder is opened by loading from its module file. -/
theorem openAt_folder_eq_ok (hfolder : d.isFolder path = true) :
    openAt d path = .ok ast ↔ d.isFile (path.child moduleFileName) = true ∧
      load d (path.child moduleFileName) .empty = .ok () ast := by
  unfold openAt
  simp only [moduleFileOf_of_isFolder hfolder, isModuleFile_child, Bool.and_true]
  cases d.isFile (path.child moduleFileName) with
  | false => simp
  | true =>
    cases load d (path.child moduleFileName) .empty with
    | ok u after => simp
    | error e after => simp

theorem resolve_moduleFile (hd : d.IsDirectory) (hfolder : d.isFolder path = true)
    (hshort : Disk.byteLength (path.child moduleFileName).chars ≤ Disk.maxPathBytes)
    (hentry : d.entryAt? (path.place ++ [moduleFileName.toList]) = some (.file bytes)) :
    d.resolve (path.child moduleFileName) =
      .ok (.present (path.place ++ [moduleFileName.toList]) (.file bytes)) := by
  have hrun := hd.resolve_descend (Disk.isFolder_iff.mp hfolder)
    (List.cons_ne_nil moduleFileName.toList []) ((hd.entryAt?_iff (by simp)).mp hentry)
  rwa [show Disk.descend path [moduleFileName.toList] = path.child moduleFileName from rfl,
    if_neg (Nat.not_lt.mpr hshort)] at hrun

/-- The module file of a folder is there if the disk has it, and its path is not too long. -/
theorem isFile_moduleFile_iff (hd : d.IsDirectory) (hfolder : d.isFolder path = true) :
    d.isFile (path.child moduleFileName) = true ↔
      Disk.byteLength (path.child moduleFileName).chars ≤ Disk.maxPathBytes ∧
        ∃ bytes, d.entryAt? (path.place ++ [moduleFileName.toList]) = some (.file bytes) := by
  constructor
  · intro hfile
    obtain ⟨l, bytes, hresolve⟩ := Disk.resolve_of_isFile hfile
    obtain ⟨rfl, hreached⟩ := Disk.place_of_resolve hresolve
    refine ⟨(Disk.checkPath_eq_ok.mp (Disk.resolve_eq_ok.mp hresolve).1).2.2, bytes, ?_⟩
    rw [← Path.place_child isName_moduleFileName]
    exact hreached.entry
  · rintro ⟨hshort, bytes, hentry⟩
    simp [Disk.isFile, Disk.entryNamed?, resolve_moduleFile hd hfolder hshort hentry]

theorem resolve_scanRoot (hfolder : d.isFolder path = true)
    (hfile : d.isFile (path.child moduleFileName) = true) :
    d.resolve (scanRoot path) = .ok (.present path.place .folder) := by
  have hne := (Disk.resolve_iff_paved.mp (Disk.isFolder_iff.mp hfolder)).1
  have hresolve := Disk.resolve_parent hfile (parent_moduleFile path)
    (by simpa [Path.isEmpty] using scanRoot_ne_nil hne)
  rwa [place_scanRoot] at hresolve

theorem find?_foldersBelow_eq_none (hd : d.IsDirectory) :
    (d.foldersBelow path.place).find? (Disk.isTooLong <| Disk.descend (scanRoot path) ·) = none ↔
      Listable d path := by
  rw [List.find?_eq_none]
  refine forall_congr' fun names => ?_
  rw [mem_foldersBelow_iff hd]
  simp [Disk.isTooLong]

/-- The scan of a project finds its files, if all folders can be listed. -/
theorem scan_eq_ok_iff (hd : d.IsDirectory) (hfolder : d.isFolder path = true)
    (hfile : d.isFile (path.child moduleFileName) = true) {files : List Path} :
    scan d (scanRoot path) (path.child moduleFileName) = .ok files ↔
      Listable d path ∧ files = found d (scanRoot path) path.place := by
  have hscan := scan_of_folder hd (isModuleFile_child path) (resolve_scanRoot hfolder hfile)
  rw [← find?_foldersBelow_eq_none hd]
  unfold scanRoot at hscan ⊢
  rw [hscan]
  cases (d.foldersBelow path.place).find?
    (Disk.isTooLong <| Disk.descend (folderOf (path.child moduleFileName)) ·) with
  | some names => simp
  | none =>
    simp only [Except.ok.injEq, true_and]
    exact eq_comm

theorem listable_of_openAt (hd : d.IsDirectory) (hfolder : d.isFolder path = true)
    (hopen : openAt d path = .ok ast) : Listable d path := by
  obtain ⟨hfile, hload⟩ := (openAt_folder_eq_ok hfolder).mp hopen
  obtain ⟨files, -, -, hscan, -⟩ := load_outline hload
  exact ((scan_eq_ok_iff hd hfolder hfile).mp hscan).1

/-- A project that can be opened can be opened on every disk with the same sources to the same tree,
unless a folder cannot be listed there. -/
theorem openAt_iff_listable (hd : d.IsDirectory) (hd' : d'.IsDirectory)
    (hfolder : d.isFolder path = true) (hfolder' : d'.isFolder path = true)
    (h : SameSources d d') (hopen : openAt d path = .ok ast) :
    openAt d' path = .ok ast ↔ Listable d' path := by
  refine ⟨listable_of_openAt hd' hfolder', fun hlistable => ?_⟩
  obtain ⟨hfile, hload⟩ := (openAt_folder_eq_ok hfolder).mp hopen
  obtain ⟨hshort, bytes, hentry⟩ := (isFile_moduleFile_iff hd hfolder).mp hfile
  have hsource : IsSource (path.place ++ [moduleFileName.toList]) :=
    ⟨moduleFileName.toList, by simp, by decide⟩
  have hentry' := (h _ hsource bytes).mpr hentry
  have hfile' := (isFile_moduleFile_iff hd' hfolder').mpr ⟨hshort, bytes, hentry'⟩
  obtain ⟨files, -, -, hscan, -⟩ := load_outline hload
  obtain ⟨-, rfl⟩ := (scan_eq_ok_iff hd hfolder hfile).mp hscan
  have hscan' := (scan_eq_ok_iff hd' hfolder' hfile').mpr ⟨hlistable, rfl⟩
  have hsame : load d' (path.child moduleFileName) = load d (path.child moduleFileName) := by
    refine load_congr ?_ hscan hscan' (moduleFiles_found_eq hd hd' h) (typeFiles_found_eq hd hd' h)
      fun file hin hloaded => read_eq_of_found hd hd' h (resolve_scanRoot hfolder hfile)
        (resolve_scanRoot hfolder' hfile') hin hloaded
    simp only [Disk.read, resolve_moduleFile hd hfolder hshort hentry,
      resolve_moduleFile hd' hfolder' hshort hentry']
  rw [openAt_folder_eq_ok hfolder', hsame]
  exact ⟨hfile', hload⟩

/-- Generation may start from a project that was opened. -/
theorem ready_of_openAt (hfolder : d.isFolder path = true) (hopen : openAt d path = .ok ast) :
    ast.Ready := by
  obtain ⟨hfile, hload⟩ := (openAt_folder_eq_ok hfolder).mp hopen
  have hcomes := load_comesTo d (path.child moduleFileName)
  rw [hload] at hcomes
  cases houtline : outline d (path.child moduleFileName) with
  | error e =>
    rw [houtline] at hcomes
    obtain ⟨_, hfailed⟩ := hcomes
    cases hfailed
  | ok o =>
    rw [houtline] at hcomes
    obtain ⟨_, hdone, hshows⟩ := hcomes
    obtain ⟨-, rfl⟩ := EStateM.Result.ok.inj hdone
    refine ⟨hshows.store.consistent, ?_, ?_⟩
    · rw [Ast.observersOf, hshows.observers]
      rfl
    · rw [Ast.observersOf, hshows.observers]
      rfl

end ModuleCompiler.Project
