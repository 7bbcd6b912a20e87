import ModuleCompiler.Proofs.Clearing
import ModuleCompiler.Proofs.Safety
import ModuleCompiler.Proofs.Spelling

/-!
A build and the sources it was made from. The output folders lie inside the folder that opening goes
through, so what a build deletes and what it copies can be sources. As long as no source lies in a
folder that a build empties, builds in or copies from, it leaves all sources as they are and makes
no new ones, and the project opens to the same tree again.
-/

namespace ModuleCompiler

open Disk (Below Paved Usable EndsInName Emptied Lasting)
open Project (IsSource SameSources Listable)

variable {start d d' : Disk} {path p q : Path} {K : Prop} {l : Location}

/-- A disk on which the sources are as they were at the start and the path of the project still
leads to it. If `K`, all folders of the project can be listed too. -/
structure Intact (start : Disk) (path : Path) (K : Prop) (d : Disk) : Prop where
  isDirectory : d.IsDirectory
  sources : SameSources start d
  paved : Paved d path
  listable : K → Listable d path

namespace Intact

/-- Edits leave the sources alone if they write no file with the name of a source, and folders can
be listed if they are made by paths that go on from that of the project. -/
theorem lasting (hne : path.chars ≠ []) :
    Lasting (Intact start path K) (fun q => K → path.Follows q) fun l => ¬ IsSource l where
  isDirectory c hc := hc.isDirectory
  parent q r hq hparent hK := (hq hK).parent hparent
  folder c q loc name hc hq husable hplace hspot hnone := by
    have hview : ∀ l, (c.put (loc ++ [name]) .folder).entryAt? l =
        if l = loc ++ [name] then some .folder else c.entryAt? l :=
      Disk.entryAt?_put (by simp) _
    have hput := hc.isDirectory.put hspot (Or.inl rfl)
    refine ⟨hput, fun l hl bytes => ?_, fun l hl => ?_, fun hK names hsome hfolder => ?_⟩
    · rw [hview, ← hc.sources l hl]
      split
      · rename_i heq
        rw [heq, hnone]
        simp
      · rfl
    · rw [hview]
      split
      · rfl
      · exact hc.paved l hl
    · have hnames : ∀ x ∈ names, Path.IsName x := fun x hx =>
        (hput.names hfolder x (List.mem_append_right _ hx)).1
      rw [hview] at hfolder
      split at hfolder
      · -- The new folder was made by a path at least as long as the one it is found under.
        rename_i heq
        rcases hq hK with hstem | hway
        · exact (Disk.byteLength_descend_le hne hstem (hplace.trans heq.symm) hnames hsome).trans
            husable.length
        · have hthere := hc.paved _ ⟨_, hway, Path.place_eq q⟩
          rw [hplace, hnone] at hthere
          cases hthere
      · exact hc.listable hK names hsome hfolder
  file c loc name bytes hc hl hspot hfree := by
    have hview : ∀ l, (c.put (loc ++ [name]) (.file bytes)).entryAt? l =
        if l = loc ++ [name] then some (.file bytes) else c.entryAt? l :=
      Disk.entryAt?_put (by simp) _
    refine ⟨hc.isDirectory.put hspot (Or.inr hfree), fun l' hl' bytes' => ?_, fun l' hl' => ?_,
      fun hK names hsome hfolder => ?_⟩
    · have hother : l' ≠ loc ++ [name] := by
        rintro rfl
        exact hl hl'
      rw [hview, if_neg hother, hc.sources l' hl']
    · have hother : l' ≠ loc ++ [name] := by
        rintro rfl
        exact hfree (hc.paved _ hl')
      rw [hview, if_neg hother]
      exact hc.paved l' hl'
    · rw [hview] at hfolder
      split at hfolder
      · cases hfolder
      · exact hc.listable hK names hsome hfolder

/-- A folder that no source lies in may be emptied. -/
theorem of_emptied (h : Intact start path K d) (he : Emptied p d d') (hp : Paved d p)
    (hne : p.place ≠ []) (hway : ∀ l, path.OnWay l → p.OnWay l)
    (hclear : ∀ l bytes, IsSource l → start.entryAt? l = some (.file bytes) → ¬ p.place <+: l) :
    Intact start path K d' := by
  have hkept : ∀ l, d'.entryAt? l = some .folder → d.entryAt? l = some .folder := by
    intro l hl
    by_cases hon : p.OnWay l
    · exact hp l hon
    · rw [he.off.off l hon, Disk.entryAt?_erase hne] at hl
      split at hl
      · cases hl
      · exact hl
  refine ⟨he.isDirectory, fun l hl bytes => ?_, fun l hl => he.paved l (hway l hl),
    fun hK names hsome hfolder => h.listable hK names hsome (hkept _ hfolder)⟩
  by_cases hon : p.OnWay l
  · rw [← h.sources l hl, he.paved l hon, hp l hon]
  · rw [he.off.off l hon, Disk.entryAt?_erase hne, ← h.sources l hl]
    split
    · rename_i hbelow
      simp only [reduceCtorEq, false_iff]
      rw [h.sources l hl]
      exact fun hfile => hclear l bytes hl hfile hbelow
    · rfl

theorem recreateFolder (hpath : path.chars ≠ []) (hend : EndsInName p) (hne : p.place ≠ [])
    (hmade : path.Follows p) (hway : ∀ l, path.OnWay l → p.OnWay l)
    (hclear : ∀ l bytes, IsSource l → start.entryAt? l = some (.file bytes) → ¬ p.place <+: l) :
    Keeps (Intact start path K) (Intact start path K) (Disk.recreateFolder p) := by
  refine .of_left fun d hd => ?_
  by_cases hthere : d.resolve p = .ok (.present p.place .folder)
  · have hpaved := Disk.paved_of_resolve hthere
    obtain ⟨d', hrun, he⟩ := Disk.recreateFolder_run hd.isDirectory hpaved.passable
      (Disk.usable_of_resolve hthere) hend hne fun _ => hpaved
    rw [hrun]
    exact hd.of_emptied he hpaved hne hway hclear
  · unfold Disk.recreateFolder
    rw [bind_run]
    have hsame := Disk.left_deleteFolder hthere
    cases hrun : Disk.deleteFolder p d with
    | error e c =>
      rw [hrun] at hsame
      exact hsame ▸ hd
    | ok u c =>
      rw [hrun] at hsame
      obtain rfl : c = d := hsame
      exact ((lasting hpath).createFolder fun _ => hmade).left hd

/-- A folder without sources may be copied to one whose name is not that of a source. -/
theorem copyFolder {source target : Path} (hpath : path.chars ≠ [])
    (hmade : K → path.GoesOn target) (hlast : ¬ IsSource target.place)
    (hclear : ∀ l bytes, IsSource l → start.entryAt? l = some (.file bytes) →
      ¬ source.place <+: l) :
    Keeps (Intact start path K) (Intact start path K) (Disk.copyFolder source target) := by
  refine (lasting hpath).copyFolder (fun names hnames hK => ?_)
    fun d names bytes hd hnames hfile hsource => ?_
  · exact (((hmade hK).join (by decide)).descend hnames).follows
  · by_cases hsome : names = []
    · rw [hsome, List.append_nil] at hsource
      exact hlast hsource
    · have hsame : IsSource (source.place ++ names) :=
        (Project.isSource_append hsome).mpr ((Project.isSource_append hsome).mp hsource)
      exact hclear _ bytes hsame ((hd.sources _ hsame bytes).mp hfile) (List.prefix_append ..)

theorem saveText {folder : Path} {name : String} (hpath : path.chars ≠ [])
    (hmade : K → path.GoesOn folder) (hname : Path.IsName name.toList)
    (hother : Project.isSourceName name.toList = false) (text : String) :
    Keeps (Intact start path K) (Intact start path K)
      (Disk.saveText (folder.child name) text) := by
  refine (lasting hpath).saveText (fun q hparent hK => ?_) ?_ text
  · exact ((hmade hK).join hname.stays.1).follows.parent hparent
  · rw [Path.place_child hname]
    rintro ⟨last, hlast, hsource⟩
    rw [List.getLast?_concat] at hlast
    rw [← Option.some.inj hlast, hother] at hsource
    cases hsource

end Intact

/-- A launcher that changes only what lies inside a folder and makes no sources there. -/
structure Harmless (launcher : Launcher) (folder : Location) : Prop where
  isDirectory : ∀ earlier command d, d.IsDirectory → (launcher earlier command d).2.IsDirectory
  outside : ∀ earlier command d l, d.IsDirectory → ¬ Below folder l →
    (launcher earlier command d).2.entryAt? l = d.entryAt? l
  noSource : ∀ earlier command d l bytes, d.IsDirectory → IsSource l →
    (launcher earlier command d).2.entryAt? l = some (.file bytes) →
      ∃ old, d.entryAt? l = some (.file old)

/-- A launcher that makes no folder which is too far from a project to be listed. -/
def KeepsListable (launcher : Launcher) (path : Path) : Prop :=
  ∀ earlier command d, d.IsDirectory → Listable d path →
    Listable (launcher earlier command d).2 path

theorem Intact.launch {launcher : Launcher} {folder : Location} (h : Harmless launcher folder)
    (hlists : K → KeepsListable launcher path) (hway : ∀ l, path.OnWay l → ¬ Below folder l)
    (hclear : ∀ l bytes, IsSource l → start.entryAt? l = some (.file bytes) → ¬ folder <+: l)
    (earlier : List Command) (command : Command) (hd : Intact start path K d) :
    Intact start path K (launcher earlier command d).2 := by
  have hdir := hd.isDirectory
  refine ⟨h.isDirectory _ _ _ hdir, fun l hl bytes => ?_, fun l hl => ?_,
    fun hK => hlists hK _ _ _ hdir (hd.listable hK)⟩
  · by_cases hbelow : Below folder l
    · -- No source lies there, and none is made.
      have hnone : ∀ old, start.entryAt? l ≠ some (.file old) := fun old hold =>
        hclear l old hl hold hbelow.1
      refine ⟨fun hfile => ?_, fun hfile => absurd hfile (hnone bytes)⟩
      obtain ⟨old, hold⟩ := h.noSource _ _ _ l bytes hdir hl hfile
      exact absurd ((hd.sources l hl old).mp hold) (hnone old)
    · rw [h.outside _ _ _ l hdir hbelow, hd.sources l hl]
  · rw [h.outside _ _ _ l hdir (hway l hl)]
    exact hd.paved l hl

namespace Pipeline

variable {c : Config} {N : String → Prop} {launcher : Launcher}

/-- A tree that generation may start from, with names of modules as given. -/
structure Named (N : String → Prop) (ast : Ast) : Prop where
  ready : ast.Ready
  names : ∀ name, ast.store.HasModuleNamed name → N name

theorem Named.generateCode {w : Workspace} (h : Named N w.ast) :
    Named N (left (Workspace.generateCode w)).ast := by
  refine ⟨?_, fun name hname => h.names name (Workspace.names_generateCode h.ready hname)⟩
  obtain ⟨u, v, hrun, hready, -⟩ := Workspace.generateCode_ends h.ready
  rw [hrun]
  exact hready

/-- What a build of a project needs of the disk it starts from, to keep it intact. -/
structure Separate (start : Disk) (path : Path) (N : String → Prop) : Prop where
  outputs : ∀ folder ∈ [(Config.ofProject path).binaries, (Config.ofProject path).code,
    (Config.ofProject path).cmake], ∀ l bytes, IsSource l →
      start.entryAt? l = some (.file bytes) → ¬ folder.place <+: l
  built : ∀ name, N name → ∀ l bytes, IsSource l → start.entryAt? l = some (.file bytes) →
    ¬ (builtFolder (.ofProject path) name).place <+: l

/-- Where the modules are built inside the folder of the build, it is enough to look at what lies in
the outputs. -/
theorem Separate.of_entries
    (h : ∀ x ∈ d.entries, IsSource x.1 → ∀ folder ∈ [(Config.ofProject path).binaries,
      (Config.ofProject path).code, (Config.ofProject path).cmake], ¬ folder.place <+: x.1)
    (hinside : ∀ name, N name →
      (Config.ofProject path).cmake.place <+: (builtFolder (.ofProject path) name).place) :
    Separate d path N := by
  have hclear : ∀ l bytes, IsSource l → d.entryAt? l = some (.file bytes) →
      ∀ folder ∈ [(Config.ofProject path).binaries, (Config.ofProject path).code,
        (Config.ofProject path).cmake], ¬ folder.place <+: l := by
    intro l bytes hl hfile
    have hne : l ≠ [] := by
      rintro rfl
      exact absurd hl (by decide)
    exact h _ (Disk.mem_of_entryAt? hne hfile) hl
  refine ⟨fun folder hfolder l bytes hl hfile => hclear l bytes hl hfile folder hfolder, ?_⟩
  exact fun name hname l bytes hl hfile hbelow =>
    hclear l bytes hl hfile _ (by simp) ((hinside name hname).trans hbelow)

theorem endsInName_child (hne : p.chars ≠ []) {name : String} (hname : Path.IsName name.toList) :
    EndsInName (p.child name) := by
  refine ⟨name.toList, ?_, hname⟩
  have hpieces : Path.pieces (p.child name).chars = p.stem ++ Path.pieces name.toList :=
    Path.pieces_join hne hname.stays.1
  rw [hpieces, Path.pieces_of_no_slash hname.2.2.2, Disk.trimSlashes, List.reverse_append]
  simp [hname.1]

section Stages

variable (hpath : path.chars ≠ []) (hsep : Separate start path N)
  (hrelative : K → ∀ name, N name → (Path.ofString name).chars.head? ≠ some '/')

include hpath

theorem goesOn_binaries : path.GoesOn (Config.ofProject path).binaries :=
  Path.GoesOn.join ⟨List.prefix_rfl, hpath⟩ (by decide)

theorem goesOn_code : path.GoesOn (Config.ofProject path).code :=
  (Path.GoesOn.join (r := .ofString "Intermediates") ⟨List.prefix_rfl, hpath⟩ (by decide)).join
    (by decide)

theorem goesOn_cmake : path.GoesOn (Config.ofProject path).cmake :=
  (Path.GoesOn.join (r := .ofString "Intermediates") ⟨List.prefix_rfl, hpath⟩ (by decide)).join
    (by decide)

include hrelative in
theorem savesKeep_intact {name : String} (hname : N name) :
    Workspace.SavesKeep (Intact start path K) (Config.ofProject path).code name := by
  have hmodule : K → path.GoesOn ((Config.ofProject path).code.child name) := fun hK =>
    (goesOn_code hpath).join (hrelative hK name hname)
  intro file hfile text
  simp only [Workspace.moduleFiles, List.mem_cons, List.not_mem_nil, or_false] at hfile
  rcases hfile with rfl | rfl | rfl
  · have hfolder := fun hK => (hmodule hK).join (r := .ofString "Include") (by decide)
    exact Intact.saveText hpath hfolder (by decide) (by decide) text
  · have hfolder := fun hK => (hmodule hK).join (r := .ofString "Src") (by decide)
    exact Intact.saveText hpath hfolder (by decide) (by decide) text
  · exact Intact.saveText hpath hmodule (by decide) (by decide) text

include hsep

theorem recreate_binaries : Keeps (Intact start path K) (Intact start path K)
    (Disk.recreateFolder (Config.ofProject path).binaries) := by
  refine Intact.recreateFolder hpath (endsInName_child hpath (by decide)) ?_
    (goesOn_binaries hpath).follows (fun l hl => (Path.onWay_join (by decide)).mpr (Or.inl hl))
    (hsep.outputs _ (by simp))
  rw [Config.ofProject, Path.place_child (by decide)]
  simp

theorem recreate_code : Keeps (Intact start path K) (Intact start path K)
    (Disk.recreateFolder (Config.ofProject path).code) := by
  refine Intact.recreateFolder hpath (endsInName_child (Path.chars_join_ne_nil hpath) (by decide))
    ?_ (goesOn_code hpath).follows
    (fun l hl => (Path.onWay_join (by decide)).mpr
      (Or.inl ((Path.onWay_join (by decide)).mpr (Or.inl hl)))) (hsep.outputs _ (by simp))
  rw [Config.code, Path.place_child (by decide)]
  simp

include hrelative

theorem copy_artifacts {name : String} (hname : N name) :
    Keeps (Intact start path K) (Intact start path K)
      (Disk.copyFolder (builtFolder (.ofProject path) name)
        (artifactFolder (.ofProject path) name)) := by
  refine Intact.copyFolder hpath (fun hK => ?_) ?_ (hsep.built name hname)
  · exact ((goesOn_binaries hpath).join (hrelative hK name hname)).join (by decide)
  · rw [artifactFolder, Path.place_child (by decide), Project.isSource_append (by simp)]
    rintro ⟨last, hlast, hsource⟩
    obtain rfl := Option.some.inj hlast
    cases hsource

omit hrelative in
theorem copy_code : Keeps (Intact start path K) (Intact start path K)
    (Disk.copyFolder (Config.ofProject path).code (Config.ofProject path).binaries) := by
  refine Intact.copyFolder hpath (fun _ => goesOn_binaries hpath) ?_ (hsep.outputs _ (by simp))
  rw [Config.ofProject, Path.place_child (by decide), Project.isSource_append (by simp)]
  rintro ⟨last, hlast, hsource⟩
  obtain rfl := Option.some.inj hlast
  cases hsource

/-- Whatever a build does keeps the disk intact. -/
theorem upholds_intact (hlauncher : Harmless launcher (Config.ofProject path).cmake.place)
    (hlists : K → KeepsListable launcher path)
    (hway : ∀ l, path.OnWay l → ¬ Below (Config.ofProject path).cmake.place l) :
    Upholds (Named N) (Intact start path K) (.ofProject path) launcher where
  tree _ hw := hw.generateCode
  binaries := recreate_binaries hpath hsep
  code := recreate_code hpath hsep
  saves hast hname := savesKeep_intact hpath hrelative (hast.names _ hname)
  root text := Intact.saveText hpath (fun _ => goesOn_code hpath) (by decide) (by decide) text
  cmake := (Intact.lasting hpath).createFolder fun _ => (goesOn_cmake hpath).follows
  launches earlier command _ hd :=
    Intact.launch hlauncher hlists hway (hsep.outputs _ (by simp)) earlier command hd
  copies := copy_code hpath hsep
  artifacts hast hname := copy_artifacts hpath hsep hrelative (hast.names _ hname)

end Stages

theorem fresh_of_openAt {d : Disk} {path : Path} {ast : Ast} (hfolder : d.isFolder path = true)
    (hopen : Project.openAt d path = .ok ast) (c : Config) (tool : BuildTool) :
    Fresh (.new ast d c tool) := ⟨Project.ready_of_openAt hfolder hopen, rfl, rfl, rfl⟩

theorem Fresh.run_eq {first : Pipeline} (h : Fresh first) (launcher : Launcher) :
    run launcher first =
      .ok (course launcher first stepLimit).state (course launcher first stepLimit) :=
  h.runFor_run (Nat.zero_le _) (by simp)

/-- A build leaves the sources of its project as they are, if none of them lies in a folder that it
empties, builds in or copies from, if the launcher changes only what is inside the folder of the
build and makes no sources there, and if the path of the project does not lead through that. The
project then opens to the same tree as before, unless some folder has become too far to be listed;
which it has not if the names of the modules are relative and the launcher makes no such folder. -/
theorem build_spares_sources {d : Disk} {path : Path} {ast : Ast} {launcher : Launcher}
    (tool : BuildTool) (hd : d.IsDirectory) (hfolder : d.isFolder path = true)
    (hopen : Project.openAt d path = .ok ast) (hsep : Separate d path ast.store.HasModuleNamed)
    (hlauncher : Harmless launcher (Config.ofProject path).cmake.place)
    (hway : ∀ l, path.OnWay l → ¬ Below (Config.ofProject path).cmake.place l) :
    ∃ st p, run launcher (.new ast d (.ofProject path) tool) = .ok st p ∧ st.isFinished = true ∧
      SameSources d p.workspace.disk ∧
      (Project.openAt p.workspace.disk path = .ok ast ↔ Listable p.workspace.disk path) ∧
      ((∀ name, ast.store.HasModuleNamed name → (Path.ofString name).chars.head? ≠ some '/') →
        KeepsListable launcher path → Project.openAt p.workspace.disk path = .ok ast) := by
  have hresolve := Disk.isFolder_iff.mp hfolder
  obtain ⟨hpath, husable, hpaved⟩ := Disk.resolve_iff_paved.mp hresolve
  have hfresh := fresh_of_openAt hfolder hopen (.ofProject path) tool
  -- Whether folders can still be listed is carried along, in case that it is asked for.
  have hupholds := upholds_intact (K := (∀ name, ast.store.HasModuleNamed name →
    (Path.ofString name).chars.head? ≠ some '/') ∧ KeepsListable launcher path) hpath hsep
    (fun hK => hK.1) hlauncher (fun hK => hK.2) hway
  have hstart : ∀ K, Intact d path K d := fun _ => ⟨hd, fun _ _ _ => Iff.rfl, hpaved,
    fun _ => Project.listable_of_openAt hd hfolder hopen⟩
  obtain ⟨_, hlast⟩ := hupholds.course (p := .new ast d (.ofProject path) tool)
    ⟨⟨hfresh.ready, fun _ => id⟩, rfl, hstart _, rfl⟩ stepLimit
  have hintact := hlast.disk
  have hfolder' := Disk.isFolder_iff.mpr (hintact.paved.resolve husable hpath)
  have hagain := Project.openAt_iff_listable hd hintact.isDirectory hfolder hfolder'
    hintact.sources hopen
  refine ⟨_, _, hfresh.run_eq launcher, hfresh.finished launcher (Nat.le_refl _), hintact.sources,
    hagain, fun hnames hlists => ?_⟩
  exact hagain.mpr (hintact.listable ⟨hnames, hlists⟩)

/-- Notes in a folder that it has been run, if the folder is there and nothing goes by that name. -/
def noting (folder : Location) : Launcher := fun _ _ d =>
  (.ok (), if d.entryAt? folder = some .folder ∧ d.entryAt? (folder ++ ["log".toList]) = none then
    d.put (folder ++ ["log".toList]) (.file "run".toUTF8) else d)

theorem noting_view (folder : Location) (earlier : List Command) (command : Command) (d : Disk)
    (l : Location) : (noting folder earlier command d).2.entryAt? l = d.entryAt? l ∨
      l = folder ++ ["log".toList] ∧
        (noting folder earlier command d).2.entryAt? l = some (.file "run".toUTF8) := by
  unfold noting
  split
  · rw [Disk.entryAt?_put (by simp)]
    split
    · exact Or.inr ⟨by assumption, rfl⟩
    · exact Or.inl rfl
  · exact Or.inl rfl

theorem harmless_noting (folder : Location) : Harmless (noting folder) folder where
  isDirectory earlier command d hd := by
    unfold noting
    split
    · rename_i hfree
      refine hd.put ⟨hfree.1, by decide, by decide, by decide⟩ (Or.inr ?_)
      rw [hfree.2]
      simp
    · exact hd
  outside earlier command d l hd hl := by
    rcases noting_view folder earlier command d l with hsame | ⟨rfl, -⟩
    · exact hsame
    · exact absurd (Disk.below_append List.prefix_rfl (by simp)) hl
  noSource earlier command d l bytes hd hl hfile := by
    rcases noting_view folder earlier command d l with hsame | ⟨rfl, -⟩
    · exact ⟨bytes, hsame ▸ hfile⟩
    · exact absurd ((Project.isSource_append (by simp)).mp hl) (by decide)

theorem keepsListable_noting (folder : Location) (path : Path) :
    KeepsListable (noting folder) path := by
  intro earlier command d hd h names hsome hfolder
  rcases noting_view folder earlier command d (path.place ++ names) with hsame | ⟨-, hfile⟩
  · exact h names hsome (hsame ▸ hfolder)
  · rw [hfile] at hfolder
    cases hfolder

def homePath : Path := .ofString "P"

/-- A project that was built before, with something left in its folder for binaries. -/
def homestead : Disk where
  entries := [
    (["P".toList], .folder),
    (["P".toList, "Binaries".toList], .folder),
    (["P".toList, "Binaries".toList, "old.txt".toList], .file "old".toUTF8),
    (["P".toList, "Intermediates".toList], .folder),
    (["P".toList, "Intermediates".toList, "CMake".toList], .folder),
    (["P".toList, "Intermediates".toList, "CMake".toList, "App".toList], .folder),
    (["P".toList, "Intermediates".toList, "CMake".toList, "App".toList, "Release".toList], .folder),
    (["P".toList, "Intermediates".toList, "CMake".toList, "App".toList, "Release".toList,
      "App".toList], .file "binary".toUTF8),
    (["P".toList, "Module.rift".toList], .file "\x7b\"name\":\"App\"\x7d".toUTF8),
    (["P".toList, "Player.rf".toList], .file "\x7b\"type\":\"Struct\"\x7d".toUTF8)]

/-- A project with one of its sources in the folder for binaries. -/
def hoard : Disk where
  entries := [
    (["P".toList], .folder),
    (["P".toList, "Binaries".toList], .folder),
    (["P".toList, "Binaries".toList, "Player.rf".toList],
      .file "\x7b\"type\":\"Struct\"\x7d".toUTF8),
    (["P".toList, "Module.rift".toList], .file "\x7b\"name\":\"App\"\x7d".toUTF8)]

/-- The tree a project opens to, if it can be opened. -/
def opened (d : Disk) : Ast := (Project.openAt d homePath).toOption.getD .empty

theorem openAt_eq_opened {d : Disk} (h : (Project.openAt d homePath).isOk = true) :
    Project.openAt d homePath = .ok (opened d) := by
  unfold opened
  cases hrun : Project.openAt d homePath with
  | ok ast => rfl
  | error e =>
    rw [hrun] at h
    cases h

theorem build_spares_sources_homestead :
    homestead.IsDirectory ∧ homestead.isFolder homePath = true ∧
    Project.openAt homestead homePath = .ok (opened homestead) ∧
    Separate homestead homePath (opened homestead).store.HasModuleNamed ∧
    ∃ st p, run (noting (Config.ofProject homePath).cmake.place)
        (.new (opened homestead) homestead (.ofProject homePath) .standard) = .ok st p ∧
      p.state = .done ∧ SameSources homestead p.workspace.disk ∧
      Project.openAt p.workspace.disk homePath = .ok (opened homestead) := by
  have hd : homestead.IsDirectory :=
    ⟨by decide +kernel, by decide +kernel, by decide +kernel, by decide +kernel⟩
  have hfolder : homestead.isFolder homePath = true := by decide +kernel
  have hopen := openAt_eq_opened (d := homestead) (by decide +kernel)
  have hnames : ∀ name, (opened homestead).store.HasModuleNamed name → name = "App" := by
    have hmodules : (opened homestead).store.modules = .ok [⟨12, 0⟩] := by decide +kernel
    have hname : (opened homestead).store.moduleName ⟨12, 0⟩ = .ok "App" := by
      decide +kernel
    rintro name ⟨ids, hids, id, hid, hrun⟩
    obtain rfl := Except.ok.inj (hmodules.symm.trans hids)
    obtain rfl := List.mem_singleton.mp hid
    exact (Except.ok.inj (hname.symm.trans hrun)).symm
  have hsep : Separate homestead homePath (opened homestead).store.HasModuleNamed := by
    refine .of_entries (by decide +kernel) fun name hname => ?_
    rw [hnames name hname]
    decide +kernel
  have hway : ∀ l, homePath.OnWay l →
      ¬ Below (Config.ofProject homePath).cmake.place l := by
    have hall : ∀ a ∈ homePath.steps.inits,
        ¬ (Config.ofProject homePath).cmake.place <+: Path.placeFrom [] a := by
      decide +kernel
    rintro l ⟨a, ha, rfl⟩ hbelow
    exact hall a ((List.mem_inits ..).mpr ha) hbelow.1
  obtain ⟨st, p, hrun, -, hsources, -, hagain⟩ :=
    build_spares_sources .standard hd hfolder hopen hsep (harmless_noting _) hway
  have hdone : (left (run (noting (Config.ofProject homePath).cmake.place)
      (.new (opened homestead) homestead (.ofProject homePath) .standard))).state = .done := by
    decide +kernel
  rw [hrun] at hdone
  refine ⟨hd, hfolder, hopen, hsep, st, p, hrun, hdone, hsources, hagain (fun name hname => ?_)
    (keepsListable_noting _ _)⟩
  rw [hnames name hname]
  decide

/-- A source in the folder for binaries is gone after a build, and the type that it describes with
it. -/
theorem hoarded_source_lost :
    hoard.IsDirectory ∧ hoard.isFolder homePath = true ∧
    Project.openAt hoard homePath = .ok (opened hoard) ∧
    (opened hoard).store.entities.length = 14 ∧
    hoard.isFile (.ofString "P/Binaries/Player.rf") = true ∧
    Harmless (noting (Config.ofProject homePath).cmake.place)
      (Config.ofProject homePath).cmake.place ∧
    ∃ st p, run (noting (Config.ofProject homePath).cmake.place)
        (.new (opened hoard) hoard (.ofProject homePath) .standard) = .ok st p ∧
      p.workspace.disk.isFile (.ofString "P/Binaries/Player.rf") = false ∧
      Project.openAt p.workspace.disk homePath = .ok (opened p.workspace.disk) ∧
      (opened p.workspace.disk).store.entities.length = 13 := by
  have hfolder : hoard.isFolder homePath = true := by decide +kernel
  have hopen := openAt_eq_opened (d := hoard) (by decide +kernel)
  have hfresh := fresh_of_openAt hfolder hopen (.ofProject homePath) .standard
  refine ⟨⟨by decide +kernel, by decide +kernel, by decide +kernel, by decide +kernel⟩, hfolder,
    hopen, by decide +kernel, by decide +kernel, harmless_noting _, _, _,
    hfresh.run_eq _, by decide +kernel, openAt_eq_opened (by decide +kernel), by decide +kernel⟩

end Pipeline

end ModuleCompiler
