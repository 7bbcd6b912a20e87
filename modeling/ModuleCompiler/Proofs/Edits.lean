import ModuleCompiler.Proofs.Ways

/-!
What changes of files can do. All that a build does to a disk, apart from emptying folders, comes
down to two edits: one more folder, and one file written, each in a folder that is there and under a
name that an entry can have. Such edits keep a disk a directory, and a property that both keep is
kept by saving a file and by copying a folder, whether these go well or not.
-/

namespace ModuleCompiler.Disk

variable {d d' : Disk} {p q : Path} {loc : Location} {e : Entry} {name : List Char}

theorem entryAt?_of_ne (hne : loc ≠ []) : d.entryAt? loc = lookup loc d.entries := if_neg hne

theorem mem_of_entryAt? (hne : loc ≠ []) (h : d.entryAt? loc = some e) : (loc, e) ∈ d.entries :=
  lookup_eq_some (by rwa [entryAt?_of_ne hne] at h)

theorem IsDirectory.entryAt?_iff (hd : d.IsDirectory) (hne : loc ≠ []) :
    d.entryAt? loc = some e ↔ (loc, e) ∈ d.entries := by
  refine ⟨mem_of_entryAt? hne, fun h => ?_⟩
  rw [entryAt?_of_ne hne]
  exact lookup_of_mem hd.isTree.nodup h

/-- Lists in the order of places with the same members are the same. -/
theorem eq_of_sorted {β : Type} {a b : List (Location × β)}
    (ha : a.Pairwise fun x y => x.1 < y.1) (hb : b.Pairwise fun x y => x.1 < y.1)
    (h : ∀ x, x ∈ a ↔ x ∈ b) : a = b := by
  have hnodup : ∀ {l : List (Location × β)}, l.Pairwise (fun x y => x.1 < y.1) → l.Nodup := by
    intro l hl
    refine List.Pairwise.imp ?_ hl
    rintro x _ hlt rfl
    exact List.lt_irrefl _ hlt
  have hperm : a.Perm b := (List.perm_ext_iff_of_nodup (hnodup ha) (hnodup hb)).mpr h
  refine hperm.eq_of_pairwise ?_ ha hb
  intro x y _ _ hxy hyx
  exact absurd (List.lt_trans hxy hyx) (List.lt_irrefl _)

/-- Directories with the same entries are the same. -/
theorem IsDirectory.ext (hd : d.IsDirectory) (hd' : d'.IsDirectory)
    (h : ∀ x, x ∈ d.entries ↔ x ∈ d'.entries) : d = d' := by
  cases d
  cases d'
  exact congrArg Disk.mk (eq_of_sorted hd.sorted hd'.sorted h)

theorem mem_of_mem_place {x : Location × Entry} {entries : List (Location × Entry)}
    (h : x ∈ place loc e entries) : x = (loc, e) ∨ x ∈ entries := by
  induction entries with
  | nil => exact Or.inl (List.mem_singleton.mp h)
  | cons y entries ih =>
    unfold place at h
    split at h
    · rcases List.mem_cons.mp h with h | h
      · exact Or.inl h
      · exact Or.inr (List.mem_cons_of_mem _ h)
    · split at h
      · exact List.mem_cons.mp h
      · rcases List.mem_cons.mp h with h | h
        · exact Or.inr (h ▸ List.mem_cons_self)
        · exact (ih h).imp_right (List.mem_cons_of_mem _)

theorem sorted_place {entries : List (Location × Entry)}
    (h : entries.Pairwise fun x y => x.1 < y.1) :
    (place loc e entries).Pairwise fun x y => x.1 < y.1 := by
  induction entries with
  | nil => exact List.pairwise_singleton _ _
  | cons y entries ih =>
    obtain ⟨l, x⟩ := y
    obtain ⟨hfirst, hrest⟩ := List.pairwise_cons.mp h
    unfold place
    split
    · rename_i hloc
      subst hloc
      exact List.pairwise_cons.mpr ⟨hfirst, hrest⟩
    · rename_i hne
      split
      · rename_i hlt
        refine List.pairwise_cons.mpr ⟨fun z hz => ?_, h⟩
        rcases List.mem_cons.mp hz with rfl | hz
        · exact hlt
        · exact List.lt_trans hlt (hfirst z hz)
      · rename_i hge
        refine List.pairwise_cons.mpr ⟨fun z hz => ?_, ih hrest⟩
        rcases mem_of_mem_place hz with rfl | hz
        · by_contra hnot
          exact hne (List.le_antisymm hnot hge)
        · exact hfirst z hz

/-- A place for an entry: a folder that is there, and a name that an entry can have. -/
structure Spot (d : Disk) (folder : Location) (name : List Char) : Prop where
  folder : d.entryAt? folder = some .folder
  isName : Path.IsName name
  short : byteLength name ≤ maxNameBytes
  noNul : Char.ofNat 0 ∉ name

/-- A folder of a directory has a way of names. -/
theorem IsDirectory.names (hd : d.IsDirectory) (h : d.entryAt? loc = some e) :
    ∀ name ∈ loc, Path.IsName name ∧ byteLength name ≤ maxNameBytes ∧ Char.ofNat 0 ∉ name := by
  intro name hname
  have hne : loc ≠ [] := List.ne_nil_of_mem hname
  have hin := mem_of_entryAt? hne h
  exact ⟨hd.named _ hin name hname, hd.storable _ hin name hname⟩

theorem IsDirectory.put (hd : d.IsDirectory) (hspot : Spot d loc name)
    (hfree : e = .folder ∨ d.entryAt? (loc ++ [name]) ≠ some .folder) :
    (d.put (loc ++ [name]) e).IsDirectory := by
  have hview := fun l => entryAt?_put (d := d) (List.append_ne_nil_of_right_ne_nil loc
    (List.cons_ne_nil name [])) e l
  have hnames : ∀ other ∈ loc ++ [name], Path.IsName other ∧ byteLength other ≤ maxNameBytes ∧
      Char.ofNat 0 ∉ other := by
    intro other hother
    rcases List.mem_append.mp hother with hin | hin
    · exact hd.names hspot.folder other hin
    · rw [List.mem_singleton.mp hin]
      exact ⟨hspot.isName, hspot.short, hspot.noNul⟩
  refine ⟨sorted_place hd.sorted, ?_, ?_, ?_⟩
  · intro x hx other hother
    rcases mem_of_mem_place hx with rfl | hx
    · exact (hnames other hother).1
    · exact hd.named x hx other hother
  · intro x hx
    rw [hview]
    split
    · -- What lies in the new entry lay there before, so it was a folder and still is one.
      rename_i heq
      rcases mem_of_mem_place hx with rfl | hx
      · simp at heq
      · have hold := hd.within x hx
        rw [heq] at hold
        rcases hfree with rfl | hfile
        · rfl
        · exact absurd hold hfile
    · rcases mem_of_mem_place hx with rfl | hx
      · simpa using hspot.folder
      · exact hd.within x hx
  · intro x hx other hother
    rcases mem_of_mem_place hx with rfl | hx
    · exact (hnames other hother).2
    · exact hd.storable x hx other hother

/-- The spot at which a path lacks its last name. -/
theorem spot_of_absent (h : d.resolveEntry p = .ok (.absent loc name)) :
    p.place = loc ++ [name] ∧ Spot d loc name ∧ d.entryAt? (loc ++ [name]) = none := by
  obtain ⟨hplace, -⟩ := absent_of_resolveEntry h
  obtain ⟨hcheck, hfollow⟩ := resolveEntry_eq_ok.mp h
  obtain ⟨hnul, -, -⟩ := checkPath_eq_ok.mp hcheck
  obtain ⟨a, rest, hsplit, hrun, hnamed, hup, hshort, hnone, -⟩ := follow_absent_split hfollow
  have hpiece : name ∈ Path.pieces p.chars :=
    trimSlashes_subset (by rw [hsplit]; simp)
  have hname : Path.IsName name := by
    refine Path.isName_of_mem_steps (p := p) (List.mem_filter.mpr ⟨hpiece, ?_⟩) hup
    simpa using hnamed
  refine ⟨hplace.symm, ⟨?_, hname, hshort, fun hin => hnul ?_⟩, hnone⟩
  · exact ((reached_nil d).follow_present hrun).2.entry
  · exact Path.mem_of_mem_pieces hpiece hin

/-- The spot of a file that is there. -/
theorem IsDirectory.spot (hd : d.IsDirectory) (h : d.entryAt? (loc ++ [name]) = some e) :
    Spot d loc name := by
  have hin := mem_of_entryAt? (by simp) h
  obtain ⟨hname, hshort, hnul⟩ := hd.names h name (by simp)
  refine ⟨?_, hname, hshort, hnul⟩
  simpa using hd.within _ hin

theorem IsDirectory.isName_of_mem_list (hd : d.IsDirectory) (h : (name, e) ∈ d.list loc) :
    Path.IsName name := by
  unfold list at h
  obtain ⟨⟨l, x⟩, hx, hfound⟩ := List.mem_filterMap.mp h
  simp only at hfound
  split at hfound
  · rename_i last hlast
    split at hfound
    · obtain ⟨rfl, -⟩ := Prod.mk.inj (Option.some.inj hfound)
      exact hd.named _ hx _ (List.mem_of_getLast? hlast)
    · cases hfound
  · cases hfound

theorem place_descend {names : List (List Char)} (h : ∀ name ∈ names, Path.IsName name) :
    (descend p names).place = p.place ++ names := by
  induction names generalizing p with
  | nil => simp [descend]
  | cons name names ih =>
    show (descend (p.join ⟨name⟩) names).place = _
    rw [ih fun x hx => h x (by simp [hx]), Path.place_join (h name (by simp))]
    simp

/-- A property of directories that is kept by one more folder, if it is made by a path that `made`
allows, and by a file written, if it is at a place that `written` allows. -/
structure Lasting (I : Disk → Prop) (made : Path → Prop) (written : Location → Prop) : Prop where
  isDirectory : ∀ d, I d → d.IsDirectory
  parent : ∀ p q, made p → p.parent = some q → made q
  folder : ∀ d p loc name, I d → made p → Usable p → p.place = loc ++ [name] → Spot d loc name →
    d.entryAt? (loc ++ [name]) = none → I (d.put (loc ++ [name]) .folder)
  file : ∀ d loc name bytes, I d → written (loc ++ [name]) → Spot d loc name →
    d.entryAt? (loc ++ [name]) ≠ some .folder → I (d.put (loc ++ [name]) (.file bytes))

theorem keeps_within {I : Disk → Prop} {α : Type} {action : Action α} (h : Keeps I I action)
    (reason : OsError → FolderError) : Keeps I I (action.within reason) := by
  refine .of_left fun d hd => ?_
  have hleft := h.left hd
  unfold Action.within
  cases hrun : action d with
  | ok a d' =>
    rw [hrun] at hleft
    exact hleft
  | error e d' =>
    rw [hrun] at hleft
    exact hleft

namespace Lasting

variable {I : Disk → Prop} {made : Path → Prop} {written : Location → Prop}
  (h : Lasting I made written)
include h

theorem withFolder (hp : made p) (hd : I d) (hrun : d.withFolder p = .ok d') : I d' := by
  unfold Disk.withFolder at hrun
  cases hresolve : d.resolveEntry p with
  | error e =>
    rw [hresolve] at hrun
    cases hrun
  | ok target =>
    rw [hresolve] at hrun
    cases target with
    | present loc e => cases hrun
    | absent loc name =>
      obtain ⟨hplace, hspot, hnone⟩ := spot_of_absent hresolve
      rw [← Except.ok.inj hrun]
      exact h.folder d p loc name hd hp (usable_of_absent hresolve) hplace hspot hnone

theorem ensureFolder (hp : made p) : Keeps I I (ensureFolder p) := by
  refine .of_left fun d hd => ?_
  unfold Disk.ensureFolder
  cases hmade : d.withFolder p with
  | ok d' => exact h.withFolder hp hd hmade
  | error e =>
    simp only
    split <;> exact hd

theorem makeFolders (hp : made p) : Keeps I I (makeFolders p) := by
  refine .of_left fun d hd => ?_
  fun_induction Disk.makeFolders p d with
  | case1 => exact hd
  | case2 p _ d' hmade => exact h.withFolder hp hd hmade
  | case3 p _ _ q hparent _ u d' hrun ih =>
    have hd' := ih (h.parent p q hp hparent)
    rw [hrun] at hd'
    exact (h.ensureFolder hp).left hd'
  | case4 p _ _ q hparent _ e d' hrun ih =>
    have hd' := ih (h.parent p q hp hparent)
    rw [hrun] at hd'
    exact hd'
  | case5 => exact hd
  | case6 => exact hd
  | case7 => exact hd

theorem createFolder (hp : made p) : Keeps I I (createFolder p) :=
  keeps_within (h.makeFolders hp) _

theorem writeFile (hp : written p.place) (bytes : ByteArray) : Keeps I I (writeFile p bytes) := by
  refine .of_left fun d hd => ?_
  unfold Disk.writeFile
  rw [get_bind_run]
  cases hresolve : d.resolveEntry p with
  | error e => exact hd
  | ok target =>
    cases target with
    | absent loc name =>
      obtain ⟨hplace, hspot, hnone⟩ := spot_of_absent hresolve
      simp only
      split
      · exact hd
      · refine h.file d loc name bytes hd (hplace ▸ hp) hspot ?_
        rw [hnone]
        nofun
    | present loc e =>
      cases e with
      | folder => exact hd
      | file old =>
        obtain ⟨hplace, hreached⟩ := place_of_resolveEntry hresolve
        simp only
        split
        · exact hd
        · have hentry := hreached.entry
          rcases List.eq_nil_or_concat' loc with rfl | ⟨l, name, rfl⟩
          · cases hentry
          · refine h.file d l name bytes hd (hplace ▸ hp) ((h.isDirectory d hd).spot hentry) ?_
            rw [hentry]
            nofun

/-- A file is saved by paths that lead to it, and written at its own place. -/
theorem saveText (hmade : ∀ q, p.parent = some q → made q) (hp : written p.place) (text : String) :
    Keeps I I (saveText p text) := by
  unfold Disk.saveText
  cases hparent : p.parent with
  | none => exact h.writeFile hp _
  | some q => exact (h.makeFolders (hmade q hparent)).bind fun _ => h.writeFile hp _

/-- Only a source that can be read has anything written to the target. -/
theorem fillFrom {source target : Path}
    (hwritten : ∀ d bytes, I d → d.entryAt? source.place = some (.file bytes) →
      written target.place) : Keeps I I (fillFrom source target) := by
  refine .of_left fun d hd => ?_
  have hread : Keeps I I (readFile source) := by
    refine .of_left fun d hd => ?_
    unfold readFile
    cases d.read source <;> exact hd
  unfold Disk.fillFrom
  rw [bind_run, discard_run]
  cases hbytes : d.read source with
  | error e =>
    have hrun : readFile source d = .error e d := by simp only [readFile, hbytes]
    rw [hrun]
    exact hd
  | ok bytes =>
    have hrun : readFile source d = .ok bytes d := by simp only [readFile, hbytes]
    have hplace := hwritten d bytes hd (entry_of_read hbytes)
    rw [hrun]
    refine Keeps.left (Keeps.bind (h.writeFile hplace _) fun _ => ?_) hd
    exact hread.bind fun _ => h.writeFile hplace _

theorem copyFile {source target : Path}
    (hwritten : ∀ d bytes, I d → d.entryAt? source.place = some (.file bytes) →
      written target.place) : Keeps I I (copyFile source target) :=
  keeps_within (h.fillFrom hwritten) _

/-- What lies below a folder is copied to the same names below another. -/
theorem copyEntry (root : Path) (base : Location) (folder : Path)
    (hmade : ∀ names, (∀ name ∈ names, Path.IsName name) → made (descend folder names))
    (hwritten : ∀ d names bytes, I d → (∀ name ∈ names, Path.IsName name) →
      d.entryAt? (base ++ names) = some (.file bytes) → written (folder.place ++ names))
    (level : Nat) (source : Path) (names : List (List Char))
    (hnames : ∀ name ∈ names, Path.IsName name) (hsource : source.place = base ++ names) :
    Keeps I I (copyEntry root level source (base ++ names) (descend folder names)) := by
  induction level generalizing source names with
  | zero => exact Keeps.throw (fun _ hd => hd) _
  | succ level ih =>
    refine Keeps.get_bind_of fun d hd => ?_
    have hfile : Keeps I I (Disk.copyFile source (descend folder names)) := by
      refine h.copyFile fun d bytes hd hbytes => ?_
      rw [place_descend hnames]
      exact hwritten d names bytes hd hnames (hsource ▸ hbytes)
    split
    · refine (h.createFolder (hmade names hnames)).bind fun _ => ?_
      refine Keeps.bind ?_ fun _ => Keeps.forM ?_
      · unfold checkListable
        split
        · exact Keeps.throw (fun _ hd => hd) _
        · exact Keeps.pure _
      · rintro ⟨name, e⟩ hin
        have hname : Path.IsName name := (h.isDirectory d hd).isName_of_mem_list hin
        have hall : ∀ x ∈ names ++ [name], Path.IsName x := by
          intro x hx
          rcases List.mem_append.mp hx with hx | hx
          · exact hnames x hx
          · exact List.mem_singleton.mp hx ▸ hname
        have hnext := ih (source.join ⟨name⟩) (names ++ [name]) hall
          (by rw [Path.place_join hname, hsource, List.append_assoc])
        rw [← List.append_assoc, descend, List.foldl_append] at hnext
        exact hnext
    · exact hfile

theorem copyFolder {source target : Path}
    (hmade : ∀ names, (∀ name ∈ names, Path.IsName name) →
      made (descend (target.join Path.empty) names))
    (hwritten : ∀ d names bytes, I d → (∀ name ∈ names, Path.IsName name) →
      d.entryAt? (source.place ++ names) = some (.file bytes) →
        written (target.place ++ names)) :
    Keeps I I (copyFolder source target) := by
  have hempty : (target.join Path.empty).place = target.place := by
    rw [Path.place_join_of_relative (by decide)]
    rfl
  refine Keeps.get_bind_of fun d hd => ?_
  split
  · rename_i loc hresolve
    obtain ⟨rfl, -⟩ := place_of_resolve hresolve
    have hcopy := h.copyEntry source source.place (target.join Path.empty) hmade
      (fun d names bytes hd hnames hbytes => hempty ▸ hwritten d names bytes hd hnames hbytes)
      maxPathBytes source [] (by simp) (by simp)
    rwa [List.append_nil] at hcopy
  · exact Keeps.throw (fun _ hd => hd) _

end Lasting

/-- A folder that is not there is reported before anything is touched. -/
theorem copyFolder_missing {source : Path} (h : d.isFolder source = false) (target : Path) :
    copyFolder source target d = .error (.missing source) d := by
  unfold copyFolder
  rw [get_bind_run]
  unfold isFolder entryNamed? at h
  cases hfound : d.resolve source with
  | error e => rfl
  | ok found =>
    cases found with
    | absent folder name => rfl
    | present loc entry =>
      cases entry with
      | file bytes => rfl
      | folder =>
        rw [hfound] at h
        cases h

end ModuleCompiler.Disk
