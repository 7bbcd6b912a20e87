import ModuleCompiler.Proofs.Loading
import ModuleCompiler.Proofs.Path

/-!
The folders of a project. Every file that is found below the folder of a project has the parts of
that folder and then names of its own, so the project's folder is around all of them, and no two
modules have the same folder. Of the module folders around a file one is therefore the deepest, and
the module that owns the file is the one of this folder.
-/

namespace ModuleCompiler

namespace Disk

/-- The entries of a disk form a tree: they lie at different places, and what leads to each of them
are names. -/
structure IsTree (d : Disk) : Prop where
  nodup : (d.entries.map Prod.fst).Nodup
  named : ∀ x ∈ d.entries, ∀ name ∈ x.1, Path.IsName name

variable {d : Disk}

theorem parts_descend {names : List (List Char)} (h : ∀ name ∈ names, Path.IsName name) (p : Path) :
    (descend p names).parts = p.parts ++ names.map .name := by
  unfold descend
  induction names generalizing p with
  | nil => simp
  | cons name names ih =>
    rw [List.foldl_cons, ih fun x hx => h x (by simp [hx]), Path.parts_join (h name (by simp))]
    simp

/-- A path goes on from where its first pieces lead. -/
theorem follow_append {a : List (List Char)} {loc found : Location} {e x : Entry}
    (h : d.follow loc e a = .ok (.present found x)) (b : List (List Char)) :
    d.follow loc e (a ++ b) = d.follow found x b := by
  fun_induction follow d loc e a with
  | case1 loc e =>
    obtain ⟨rfl, rfl⟩ : loc = found ∧ e = x := by simpa using h
    rfl
  | case2 => cases h
  | case3 loc piece rest hvoid ih =>
    rw [List.cons_append, follow, if_pos hvoid]
    exact ih h
  | case4 loc rest hvoid ih =>
    rw [List.cons_append, follow, if_neg hvoid, if_pos rfl]
    exact ih h
  | case5 => cases h
  | case6 loc piece rest hvoid hup hlong next hnext ih =>
    rw [List.cons_append, follow, if_neg hvoid, if_neg hup, if_neg hlong, hnext]
    exact ih h
  | case7 => cases h
  | case8 => cases h

/-- The first pieces of a path that leads to something lead to something. -/
theorem exists_follow_of_append {a b : List (List Char)} {loc found : Location} {e x : Entry}
    (h : d.follow loc e (a ++ b) = .ok (.present found x)) :
    ∃ l y, d.follow loc e a = .ok (.present l y) := by
  fun_induction follow d loc e a with
  | case1 loc e => exact ⟨loc, e, rfl⟩
  | case2 => cases h
  | case3 loc piece rest hvoid ih =>
    rw [List.cons_append, follow, if_pos hvoid] at h
    exact ih h
  | case4 loc rest hvoid ih =>
    rw [List.cons_append, follow, if_neg hvoid, if_pos rfl] at h
    exact ih h
  | case5 loc piece rest hvoid hup hlong =>
    rw [List.cons_append, follow, if_neg hvoid, if_neg hup, if_pos hlong] at h
    cases h
  | case6 loc piece rest hvoid hup hlong next hnext ih =>
    rw [List.cons_append, follow, if_neg hvoid, if_neg hup, if_neg hlong, hnext] at h
    exact ih h
  | case7 loc piece rest hvoid hup hlong hnone =>
    rw [List.cons_append, follow, if_neg hvoid, if_neg hup, if_neg hlong, hnone] at h
    simp only at h
    split at h <;> cases h
  | case8 loc piece rest hvoid hup hlong hnone =>
    rw [List.cons_append, follow, if_neg hvoid, if_neg hup, if_neg hlong, hnone] at h
    simp only at h
    split at h <;> cases h

/-- No path goes on through a file. -/
theorem follow_append_of_file {a b : List (List Char)} {loc found : Location} {e : Entry}
    {bytes : ByteArray} (h : d.follow loc e a = .ok (.present found (.file bytes))) (hb : b ≠ []) :
    d.follow loc e (a ++ b) = .error .notFolder := by
  obtain ⟨piece, rest, rfl⟩ := List.exists_cons_of_ne_nil hb
  rw [follow_append h]
  rfl

theorem follow_of_resolve {p : Path} {target : Target} (h : d.resolve p = .ok target) :
    d.follow [] .folder (Path.pieces p.chars) = .ok target := by
  unfold resolve at h
  cases hcheck : checkPath p with
  | error e =>
    rw [hcheck] at h
    cases h
  | ok u =>
    rw [hcheck] at h
    exact h

theorem walk_eq_ok {root : Path} {visits : List Visit} (h : d.walk root = .ok visits) :
    ∃ loc e, d.resolve root = .ok (.present loc e) ∧
      (e = .folder → visits = d.walkFrom root loc) := by
  unfold walk at h
  split at h
  · cases h
  · cases h
  · rename_i loc bytes hresolve
    exact ⟨loc, .file bytes, hresolve, fun hfolder => by cases hfolder⟩
  · rename_i loc hresolve
    split at h
    · cases h
    · exact ⟨loc, .folder, hresolve, fun _ => (Except.ok.inj h).symm⟩

/-- What a file lies in is a folder. -/
theorem folder_of_parent {p q : Path} {loc : Location} {e : Entry} (hp : d.isFile p)
    (hparent : p.parent = some q) (hq : d.resolve q = .ok (.present loc e)) : e = .folder := by
  have hfollow := follow_of_resolve hq
  rcases Path.pieces_parent hparent with hchars | hchars | hchars | ⟨more, hmore, hpieces⟩
  · obtain rfl : q = Path.empty := by
      cases q
      exact congrArg Path.mk hchars
    cases hq
  · rw [hchars] at hfollow
    cases hfollow
    rfl
  · rw [hchars] at hfollow
    cases hfollow
    rfl
  · cases e with
    | folder => rfl
    | file bytes =>
      have hthrough := follow_append_of_file hfollow hmore
      rw [← hpieces] at hthrough
      unfold isFile entryNamed? at hp
      cases hresolve : d.resolve p with
      | error e => simp [hresolve] at hp
      | ok target =>
        rw [follow_of_resolve hresolve] at hthrough
        cases hthrough

end Disk

namespace Project

variable {d : Disk} {projectFile root file : Path} {files : List Path} {loc : Location}

theorem parts_folderOf {name : List Char} (h : file.parts.getLast? = some (.name name)) :
    (folderOf file).parts = file.parts.dropLast := by
  obtain ⟨folder, hfolder⟩ := Path.exists_parent h
  rw [folderOf, hfolder, Option.getD_some, Path.parts_parent hfolder]

theorem parts_of_isModuleFile (h : isModuleFile file = true) :
    file.parts = (folderOf file).parts ++ [.name moduleFileName.toList] := by
  have hname : file.fileName = some moduleFileName.toList := of_decide_eq_true h
  unfold Path.fileName at hname
  split at hname
  · rename_i text hlast
    rw [parts_folderOf hlast, ← Option.some.inj hname]
    exact (List.dropLast_append_getLast? _ hlast).symm
  · cases hname

/-- The folder of a project is walked through as a folder. -/
theorem scan_eq (hfile : d.isFile projectFile) (hname : isModuleFile projectFile = true)
    (hscan : scan d (folderOf projectFile) projectFile = .ok files) :
    ∃ loc, files = otherFiles projectFile (d.walkFrom (folderOf projectFile) loc) := by
  obtain ⟨folder, hfolder⟩ := Path.exists_parent (p := projectFile)
    (by rw [parts_of_isModuleFile hname, List.getLast?_concat])
  have hroot : folderOf projectFile = folder := by rw [folderOf, hfolder, Option.getD_some]
  rw [hroot] at hscan ⊢
  unfold scan at hscan
  cases hwalk : d.walk folder with
  | error e =>
    rw [hwalk] at hscan
    cases hscan
  | ok visits =>
    rw [hwalk] at hscan
    obtain ⟨loc, e, hresolve, hvisits⟩ := Disk.walk_eq_ok hwalk
    obtain rfl := Disk.folder_of_parent hfile hfolder hresolve
    exact ⟨loc, by rw [← hvisits rfl, Except.ok.inj hscan]⟩

/-- The file that one entry of the disk adds to what is found below a root, if any. -/
def foundAt (projectFile root : Path) (loc : Location) : Location × Entry → Option Path
  | (_, .folder) => none
  | (l, .file _) =>
    let file := Disk.descend root (l.drop loc.length)
    if loc.isPrefixOf l && l ≠ loc && !file.same projectFile then some file else none

theorem otherFiles_walkFrom :
    otherFiles projectFile (d.walkFrom root loc) =
      d.entries.filterMap (foundAt projectFile root loc) := by
  unfold otherFiles Disk.walkFrom
  rw [List.filterMap_cons, List.filterMap_filterMap]
  apply List.filterMap_congr
  rintro ⟨l, entry⟩ -
  cases entry with
  | folder => simp [foundAt]
  | file bytes =>
    by_cases hbelow : loc <+: l ∧ ¬ l = loc
    · by_cases hsame : (Disk.descend root (l.drop loc.length)).same projectFile = true
      · simp [foundAt, hsame]
      · simp [foundAt, hbelow, hsame]
    · simp [foundAt, hbelow]

/-- Such a file has the parts of the root and then the names that lead on to it. -/
theorem foundAt_eq_some {x : Location × Entry} (hnames : ∀ name ∈ x.1, Path.IsName name)
    (h : foundAt projectFile root loc x = some file) :
    file.parts ≠ projectFile.parts ∧
      ∃ names, names ≠ [] ∧ x.1 = loc ++ names ∧ file.parts = root.parts ++ names.map .name := by
  obtain ⟨l, entry⟩ := x
  cases entry with
  | folder => cases h
  | file bytes =>
    simp only [foundAt] at h
    split at h
    · rename_i hfound
      obtain rfl := Option.some.inj h
      obtain ⟨⟨⟨names, rfl⟩, hproper⟩, hother⟩ : (loc <+: l ∧ l ≠ loc) ∧ _ := by simpa using hfound
      refine ⟨by simpa [Path.same] using hother, names, ?_, rfl, ?_⟩
      · rintro rfl
        exact hproper (List.append_nil loc)
      · rw [List.drop_left]
        exact Disk.parts_descend (fun name hname => hnames name (by simp [hname])) root
    · cases h

theorem pairwise_otherFiles (hd : d.IsTree) :
    (otherFiles projectFile (d.walkFrom root loc)).Pairwise fun a b => a.parts ≠ b.parts := by
  rw [otherFiles_walkFrom, List.pairwise_filterMap]
  have hplaces : d.entries.Pairwise fun x y => x.1 ≠ y.1 := List.pairwise_map.mp hd.nodup
  apply hplaces.imp_of_mem
  intro x y hx hy hne a ha b hb hsame
  obtain ⟨-, names, -, hxl, hxparts⟩ := foundAt_eq_some (hd.named x hx) ha
  obtain ⟨-, others, -, hyl, hyparts⟩ := foundAt_eq_some (hd.named y hy) hb
  rw [hxparts, hyparts] at hsame
  have hnames : names = others :=
    List.map_injective_iff.mpr (fun _ _ => Path.Part.name.inj) (List.append_cancel_left hsame)
  exact hne (by rw [hxl, hyl, hnames])

/-- The folders of all modules of a project. -/
def moduleFolders (projectFile : Path) (files : List Path) : List Path :=
  (allModuleFiles projectFile files).map folderOf

/-- Of some folders, `nearest` is around a folder, and is the deepest of those that are. -/
def IsNearest (folders : List Path) (folder nearest : Path) : Prop :=
  nearest ∈ folders ∧ folder.startsWith nearest = true ∧
    ∀ other ∈ folders, folder.startsWith other = true → other.depth ≤ nearest.depth

instance (folders : List Path) (folder nearest : Path) :
    Decidable (IsNearest folders folder nearest) :=
  inferInstanceAs (Decidable (_ ∧ _ ∧ _))

/-- What was found below the folder of a project. -/
structure Found (projectFile : Path) (files : List Path) : Prop where
  isModuleFile : isModuleFile projectFile = true
  inside : ∀ file ∈ files, (folderOf file).startsWith (folderOf projectFile) = true
  other : ∀ file ∈ files, file.parts ≠ projectFile.parts
  distinct : files.Pairwise fun a b => a.parts ≠ b.parts

theorem found_of_scan (hd : d.IsTree) (hfile : d.isFile projectFile)
    (hname : Project.isModuleFile projectFile = true)
    (hscan : scan d (folderOf projectFile) projectFile = .ok files) : Found projectFile files := by
  obtain ⟨loc, rfl⟩ := scan_eq hfile hname hscan
  have hfound : ∀ file ∈ otherFiles projectFile (d.walkFrom (folderOf projectFile) loc),
      file.parts ≠ projectFile.parts ∧ ∃ names, names ≠ [] ∧
        file.parts = (folderOf projectFile).parts ++ names.map .name := by
    intro file hin
    rw [otherFiles_walkFrom, List.mem_filterMap] at hin
    obtain ⟨x, hx, hxfile⟩ := hin
    obtain ⟨hother, names, hne, -, hparts⟩ := foundAt_eq_some (hd.named x hx) hxfile
    exact ⟨hother, names, hne, hparts⟩
  refine ⟨hname, ?_, fun file hin => (hfound file hin).1, pairwise_otherFiles hd⟩
  intro file hin
  obtain ⟨-, names, hne, hparts⟩ := hfound file hin
  have hlast : file.parts.getLast? = some (.name (names.getLast hne)) := by
    rw [hparts, List.getLast?_append_of_ne_nil _ (by simpa using hne), List.getLast?_map,
      List.getLast?_eq_some_getLast hne]
    rfl
  rw [Path.startsWith, List.isPrefixOf_iff_prefix, parts_folderOf hlast, hparts,
    List.dropLast_append_of_ne_nil (by simpa using hne)]
  exact List.prefix_append ..

namespace Found

variable (h : Found projectFile files)
include h

/-- Different modules have different folders. -/
theorem folders_distinct : (allModuleFiles projectFile files).Pairwise fun a b =>
    (folderOf a).parts ≠ (folderOf b).parts := by
  have hperm : (moduleFiles files).Perm (files.filter Project.isModuleFile) :=
    List.mergeSort_perm ..
  have hmodule : ∀ file ∈ moduleFiles files, file ∈ files ∧ Project.isModuleFile file = true :=
    fun file hfile => List.mem_filter.mp (hperm.mem_iff.mp hfile)
  have hfolder : ∀ {a b : Path}, Project.isModuleFile a = true → Project.isModuleFile b = true →
      a.parts ≠ b.parts → (folderOf a).parts ≠ (folderOf b).parts := by
    intro a b ha hb hne hsame
    rw [parts_of_isModuleFile ha, parts_of_isModuleFile hb, hsame] at hne
    exact hne rfl
  have hpairs : (moduleFiles files).Pairwise fun a b => a.parts ≠ b.parts :=
    (hperm.pairwise_iff fun hab => Ne.symm hab).mpr (h.distinct.filter _)
  refine List.pairwise_cons.mpr ⟨?_, ?_⟩
  · intro file hfile
    obtain ⟨hin, hname⟩ := hmodule file hfile
    exact hfolder h.isModuleFile hname (h.other file hin).symm
  · exact hpairs.imp_of_mem fun ha hb => hfolder (hmodule _ ha).2 (hmodule _ hb).2

theorem index_unique {i j : Nat} {a b : Path} (ha : (allModuleFiles projectFile files)[i]? = some a)
    (hb : (allModuleFiles projectFile files)[j]? = some b)
    (hsame : (folderOf a).parts = (folderOf b).parts) : i = j := by
  have hnodup : ((allModuleFiles projectFile files).map fun f => (folderOf f).parts).Nodup :=
    List.pairwise_map.mpr h.folders_distinct
  have hi := (List.getElem?_eq_some_iff.mp ha).1
  apply (List.getElem?_inj (by simpa using hi) hnodup).mp
  rw [List.getElem?_map, List.getElem?_map, ha, hb]
  exact congrArg some hsame

/-- A file belongs to a module exactly if the folder of the module is the nearest around it. -/
theorem ownerOf_eq_iff {i : Nat} {moduleFile : Path}
    (hmodule : (allModuleFiles projectFile files)[i]? = some moduleFile) (hfile : file ∈ files) :
    ownerOf projectFile files file = .first (primitiveNodes.length + i) ↔
      IsNearest (moduleFolders projectFile files) (folderOf file) (folderOf moduleFile) := by
  have haround : ∀ {k other}, (allModuleFiles projectFile files)[k]? = some other →
      (folderOf file).startsWith (folderOf other) = true →
      (Entity.first (primitiveNodes.length + k), folderOf other) ∈
        (loadedModules projectFile files).filter ((folderOf file).startsWith ·.2) :=
    fun hother hstarts => List.mem_filter.mpr ⟨mem_placedModules.mpr ⟨_, _, hother, rfl⟩, hstarts⟩
  have hroot := haround (k := 0) rfl (h.inside file hfile)
  obtain ⟨c, hc, hdeepest, hbound⟩ := Store.deepest_of_ne_nil (List.ne_nil_of_mem hroot)
  obtain ⟨hin, hstarts⟩ := List.mem_filter.mp hc
  obtain ⟨j, closest, hclosest, rfl⟩ := mem_placedModules.mp hin
  have howner : ownerOf projectFile files file = .first (primitiveNodes.length + j) := by
    unfold ownerOf closestModule
    rw [hdeepest]
    rfl
  rw [howner, Entity.first_inj, Nat.add_left_cancel_iff]
  constructor
  · rintro rfl
    obtain rfl : closest = moduleFile := Option.some.inj (hclosest.symm.trans hmodule)
    refine ⟨List.mem_map_of_mem (List.mem_of_getElem? hmodule), hstarts, ?_⟩
    intro folder hfolder hinside
    obtain ⟨other, hother, rfl⟩ := List.mem_map.mp hfolder
    obtain ⟨k, hk⟩ := List.mem_iff_getElem?.mp hother
    exact hbound _ (haround hk hinside)
  · rintro ⟨-, hinside, hnearest⟩
    -- Two folders of the same depth around one file have the same parts.
    have hle := hnearest _ (List.mem_map_of_mem (List.mem_of_getElem? hclosest)) hstarts
    have hge := hbound _ (haround hmodule hinside)
    rw [Path.startsWith, List.isPrefixOf_iff_prefix] at hstarts hinside
    have hsame := (List.prefix_of_prefix_length_le hstarts hinside hle).eq_of_length
      (Nat.le_antisymm hle hge)
    exact h.index_unique hclosest hmodule hsame

end Found

end Project

end ModuleCompiler
