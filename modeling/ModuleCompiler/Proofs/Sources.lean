import ModuleCompiler.Proofs.Disk
import ModuleCompiler.Proofs.Resolution

/-!
The files of a project on the disk. On a disk that is a tree of folders, the folder of a module
file can always be walked through, unless a folder below it has too long a path to be listed; and
what is found there can be read, unless its own path is too long. The files are found in the order
of the names that lead to them, and the module files among them are then put in the order of their
depth.
-/

namespace ModuleCompiler

namespace Path

theorem prefix_unite_append (ps qs : List (List Char)) : unite ps <+: unite (ps ++ qs) := by
  induction ps with
  | nil => exact List.nil_prefix
  | cons p ps ih =>
    cases ps with
    | nil =>
      obtain ⟨rest, hrest⟩ := unite_cons p qs
      exact ⟨rest, hrest.symm⟩
    | cons q ps =>
      obtain ⟨rest, hrest⟩ := ih
      refine ⟨rest, ?_⟩
      simp only [List.cons_append, unite, List.append_assoc] at hrest ⊢
      rw [hrest]

/-- A path begins with the text of its parent. -/
theorem prefix_of_parent {p q : Path} (h : p.parent = some q) : q.chars <+: p.chars := by
  rcases parent_split h with ⟨rfl, -⟩ | ⟨l, more, last, rfl, hpieces, -, -, -⟩
  · exact List.nil_prefix
  · have hbody := prefix_unite_append l more
    rw [← hpieces, unite_pieces] at hbody
    have hchars := eq_append_splitLead p.chars
    nth_rewrite 2 [hchars]
    exact (List.prefix_append_right_inj _).mpr hbody

end Path

namespace Disk

variable {d : Disk} {root : Path} {loc : Location} {names : List (List Char)} {e : Entry}

/-- A disk as an operating system keeps it: the entries are in the order in which they are walked
through, all lie in folders, and their names are such as files can have. -/
structure IsDirectory (d : Disk) : Prop where
  sorted : d.entries.Pairwise fun x y => x.1 < y.1
  named : ∀ x ∈ d.entries, ∀ name ∈ x.1, Path.IsName name
  within : ∀ x ∈ d.entries, d.entryAt? x.1.dropLast = some .folder
  storable : ∀ x ∈ d.entries, ∀ name ∈ x.1,
    byteLength name ≤ maxNameBytes ∧ Char.ofNat 0 ∉ name

theorem IsDirectory.isTree (hd : d.IsDirectory) : d.IsTree := by
  refine ⟨List.pairwise_map.mpr (hd.sorted.imp fun hlt heq => ?_), hd.named⟩
  rw [heq] at hlt
  exact List.lt_irrefl _ hlt

theorem lookup_eq_some {entries : List (Location × Entry)} (h : lookup loc entries = some e) :
    (loc, e) ∈ entries := by
  induction entries with
  | nil => cases h
  | cons x entries ih =>
    obtain ⟨l, y⟩ := x
    unfold lookup at h
    split at h
    · rename_i hloc
      rw [hloc, Option.some.inj h]
      exact List.mem_cons_self
    · exact List.mem_cons_of_mem _ (ih h)

theorem lookup_of_mem {entries : List (Location × Entry)} (hnodup : (entries.map Prod.fst).Nodup)
    (h : (loc, e) ∈ entries) : lookup loc entries = some e := by
  induction entries with
  | nil => cases h
  | cons x entries ih =>
    obtain ⟨l, y⟩ := x
    obtain ⟨hfirst, hrest⟩ := List.nodup_cons.mp hnodup
    rcases List.mem_cons.mp h with heq | h
    · obtain ⟨rfl, rfl⟩ := Prod.mk.inj heq
      exact if_pos rfl
    · have hne : l ≠ loc := by
        rintro rfl
        exact hfirst (List.mem_map.mpr ⟨_, h, rfl⟩)
      rw [lookup, if_neg hne]
      exact ih hrest h

/-- All entries can be reached through folders. -/
theorem IsDirectory.reached (hd : d.IsDirectory) (h : (loc, e) ∈ d.entries) (hne : loc ≠ []) :
    Reached d loc e := by
  induction hlength : loc.length generalizing loc e with
  | zero => exact absurd (List.length_eq_zero_iff.mp hlength) hne
  | succ n ih =>
    obtain ⟨l, name, rfl⟩ := (List.eq_nil_or_concat' loc).resolve_left hne
    have hentry : d.entryAt? (l ++ [name]) = some e := by
      rw [entryAt?, if_neg hne]
      exact lookup_of_mem hd.isTree.nodup h
    have hwithin := hd.within _ h
    rw [List.dropLast_concat] at hwithin
    by_cases hl : l = []
    · subst hl
      exact (reached_nil d).child hentry
    · rw [entryAt?, if_neg hl] at hwithin
      exact (ih (lookup_eq_some hwithin) hl (by simpa using hlength)).child hentry

theorem byteLength_append (a b : List Char) :
    byteLength (a ++ b) = byteLength a + byteLength b := by
  induction a with
  | nil => simp [byteLength]
  | cons c a ih =>
    simp only [List.cons_append, byteLength, ih]
    omega

theorem byteLength_mono {a b : List Char} (h : a <+: b) : byteLength a ≤ byteLength b := by
  obtain ⟨rest, rfl⟩ := h
  rw [byteLength_append]
  exact Nat.le_add_right _ _

theorem checkPath_eq_ok {p : Path} :
    checkPath p = .ok () ↔
      Char.ofNat 0 ∉ p.chars ∧ p.chars ≠ [] ∧ byteLength p.chars ≤ maxPathBytes := by
  unfold checkPath Path.isEmpty
  by_cases hnul : Char.ofNat 0 ∈ p.chars
  · simp [hnul]
  · by_cases hnil : p.chars = []
    · simp [hnil]
    · by_cases hlong : maxPathBytes < byteLength p.chars
      · simp [hnul, hnil, hlong]
      · simp [hnul, hnil, hlong, Nat.le_of_not_lt hlong]

theorem follow_name {name : List Char} (hname : Path.IsName name)
    (hshort : byteLength name ≤ maxNameBytes) (he : d.entryAt? (loc ++ [name]) = some e) :
    d.follow loc .folder [name] = .ok (.present (loc ++ [name]) e) := by
  rw [follow, if_neg (by simpa using ⟨hname.1, hname.2.1⟩), if_neg hname.2.2.1,
    if_neg (Nat.not_lt.mpr hshort), he]
  rfl

/-- A name appended to the path of a folder is looked up in that folder. -/
theorem follow_join_name {name : List Char} (hne : root.chars ≠ [])
    (hroot : d.follow [] .folder (Path.pieces root.chars) = .ok (.present loc .folder))
    (hname : Path.IsName name) :
    d.follow [] .folder (Path.pieces (root.join ⟨name⟩).chars) = d.follow loc .folder [name] := by
  have hpieces := Path.pieces_of_no_slash hname.2.2.2
  rw [Path.join_name hname.2.2.2, if_neg hne]
  split
  · rename_i hlast
    obtain ⟨a, ha⟩ := List.getLast?_eq_some_iff.mp hlast
    rw [ha, Path.pieces_append_slash] at hroot
    rw [ha, List.append_assoc, List.singleton_append, Path.pieces_append_slash, hpieces]
    obtain ⟨l, y, hfirst⟩ := exists_follow_of_append hroot
    rw [follow_append hfirst] at hroot
    -- The slash at the end can only be gone through where there is a folder.
    cases y with
    | file bytes => cases hroot
    | folder =>
      obtain rfl : l = loc := by cases hroot; rfl
      rw [follow_append hfirst]
  · rw [Path.pieces_append_slash, hpieces, follow_append hroot]

/-- It leads to the entry of this name. -/
theorem follow_join {name : List Char} (hne : root.chars ≠ [])
    (hroot : d.follow [] .folder (Path.pieces root.chars) = .ok (.present loc .folder))
    (hname : Path.IsName name) (hshort : byteLength name ≤ maxNameBytes)
    (he : d.entryAt? (loc ++ [name]) = some e) :
    d.follow [] .folder (Path.pieces (root.join ⟨name⟩).chars) =
      .ok (.present (loc ++ [name]) e) :=
  (follow_join_name hne hroot hname).trans (follow_name hname hshort he)

theorem Reached.exists_above (h : Reached d loc e) {l : Location} (hl : l <+: loc) :
    ∃ x, d.entryAt? l = some x := by
  by_cases heq : l = loc
  · exact ⟨e, heq ▸ h.entry⟩
  · exact ⟨.folder, h.above l hl heq⟩

theorem chars_join_ne_nil {name : List Char} (hname : Path.IsName name) (p : Path) :
    (p.join ⟨name⟩).chars ≠ [] := by
  rw [Path.join_name hname.2.2.2]
  split
  · exact hname.1
  · split <;> simp [*]

/-- The names that lead on to an entry do so when they are appended to a path. -/
theorem follow_descend {x : Entry} (hne : root.chars ≠ [])
    (hroot : d.follow [] .folder (Path.pieces root.chars) = .ok (.present loc x))
    (hnames : ∀ name ∈ names, Path.IsName name ∧ byteLength name ≤ maxNameBytes)
    (he : Reached d (loc ++ names) e) :
    d.follow [] .folder (Path.pieces (descend root names).chars) =
      .ok (.present (loc ++ names) e) := by
  induction names generalizing root loc x with
  | nil =>
    have hx := ((reached_nil d).follow_present hroot).2.entry
    rw [List.append_nil] at he ⊢
    rw [show descend root [] = root from rfl, hroot, Option.some.inj (he.entry.symm.trans hx)]
  | cons name names ih =>
    have hx := ((reached_nil d).follow_present hroot).2.entry
    have hfolder : d.entryAt? loc = some .folder :=
      he.above loc (List.prefix_append ..) (by simp)
    obtain rfl : x = .folder := Option.some.inj (hx.symm.trans hfolder)
    obtain ⟨hname, hshort⟩ := hnames name (by simp)
    rw [List.append_cons] at he ⊢
    obtain ⟨next, hnext⟩ := he.exists_above (List.prefix_append ..)
    exact ih (chars_join_ne_nil hname root) (follow_join hne hroot hname hshort hnext)
      (fun other hother => hnames other (by simp [hother])) he

/-- Going down to names puts them, and slashes, at the end of a path. -/
theorem mem_chars_descend {c : Char} (hc : c ≠ '/') (hnames : ∀ name ∈ names, Path.IsName name)
    (h : c ∈ (descend root names).chars) : c ∈ root.chars ∨ ∃ name ∈ names, c ∈ name := by
  induction names generalizing root with
  | nil => exact Or.inl h
  | cons name names ih =>
    have hjoin : c ∈ (root.join ⟨name⟩).chars → c ∈ root.chars ∨ c ∈ name := by
      rw [Path.join_name (hnames name (by simp)).2.2.2]
      split
      · exact Or.inr
      · split <;> simp [hc]
    rcases ih (fun other hother => hnames other (by simp [hother])) h with h | ⟨other, hother, h⟩
    · rcases hjoin h with h | h
      · exact Or.inl h
      · exact Or.inr ⟨name, by simp, h⟩
    · exact Or.inr ⟨other, by simp [hother], h⟩

theorem chars_descend_ne_nil (hne : root.chars ≠ []) (hnames : ∀ name ∈ names, Path.IsName name) :
    (descend root names).chars ≠ [] := by
  induction names generalizing root with
  | nil => exact hne
  | cons name names ih =>
    exact ih (chars_join_ne_nil (hnames name (by simp)) root) fun other hother =>
      hnames other (by simp [hother])

/-- What lies below a folder is found by its path, if the path is not too long. -/
theorem IsDirectory.resolve_descend (hd : d.IsDirectory)
    (hroot : d.resolve root = .ok (.present loc .folder)) (hnames : names ≠ [])
    (he : (loc ++ names, e) ∈ d.entries) :
    d.resolve (descend root names) =
      if maxPathBytes < byteLength (descend root names).chars then .error .nameTooLong
      else .ok (.present (loc ++ names) e) := by
  obtain ⟨hcheck, hfollow⟩ := resolve_eq_ok.mp hroot
  obtain ⟨hnul, hne, -⟩ := checkPath_eq_ok.mp hcheck
  have hin : ∀ name ∈ names, name ∈ loc ++ names := fun _ => List.mem_append_right _
  have hnamed : ∀ name ∈ names, Path.IsName name := fun name hname =>
    hd.named _ he name (hin name hname)
  have hstorable := fun name hname => hd.storable _ he name (hin name hname)
  have hfree : Char.ofNat 0 ∉ (descend root names).chars := by
    intro h
    rcases mem_chars_descend (by decide) hnamed h with h | ⟨name, hname, h⟩
    · exact hnul h
    · exact (hstorable name hname).2 h
  have hsome := chars_descend_ne_nil hne hnamed
  split
  · rename_i hlong
    have hrefused : checkPath (descend root names) = .error .nameTooLong := by
      simp [checkPath, Path.isEmpty, hfree, hsome, hlong]
    rw [resolve, hrefused]
    rfl
  · rename_i hshort
    refine resolve_eq_ok.mpr ⟨checkPath_eq_ok.mpr ⟨hfree, hsome, Nat.le_of_not_lt hshort⟩, ?_⟩
    exact follow_descend hne hfollow
      (fun name hname => ⟨hnamed name hname, (hstorable name hname).1⟩)
      (hd.reached he (by simpa using fun _ => hnames))

theorem resolve_of_isFile {p : Path} (h : d.isFile p) :
    ∃ l bytes, d.resolve p = .ok (.present l (.file bytes)) := by
  unfold isFile at h
  split at h
  · rename_i bytes hentry
    unfold entryNamed? at hentry
    split at hentry
    · rename_i l x hresolve
      exact ⟨l, bytes, by rw [hresolve, Option.some.inj hentry]⟩
    · cases hentry
  · cases h

/-- What a file lies in is a folder that can be walked through. -/
theorem resolve_parent {p q : Path} (hp : d.isFile p) (hparent : p.parent = some q)
    (hne : q.isEmpty = false) : d.resolve q = .ok (.present q.place .folder) := by
  obtain ⟨l, bytes, hresolve⟩ := resolve_of_isFile hp
  obtain ⟨hcheck, hfollow⟩ := resolve_eq_ok.mp hresolve
  obtain ⟨hnul, -, hlength⟩ := checkPath_eq_ok.mp hcheck
  have hfirst := Path.prefix_of_parent hparent
  have hsome : q.chars ≠ [] := by
    intro hnil
    rw [Path.isEmpty, hnil] at hne
    cases hne
  have hcheckParent : checkPath q = .ok () := checkPath_eq_ok.mpr
    ⟨fun h => hnul (hfirst.subset h), hsome, (byteLength_mono hfirst).trans hlength⟩
  have hpresent : ∃ loc y, d.follow [] .folder (Path.pieces q.chars) = .ok (.present loc y) := by
    rcases Path.pieces_parent hparent with hchars | hchars | hchars | ⟨more, -, hpieces⟩
    · exact absurd hchars hsome
    · exact ⟨[], .folder, by rw [hchars]; rfl⟩
    · exact ⟨[], .folder, by rw [hchars]; rfl⟩
    · rw [hpieces] at hfollow
      exact exists_follow_of_append hfollow
  obtain ⟨loc, y, hq⟩ := hpresent
  have hfolder := resolve_eq_ok.mpr ⟨hcheckParent, hq⟩
  obtain rfl := folder_of_parent hp hparent hfolder
  rwa [(place_of_resolve hfolder).1] at hfolder

/-- What lies below a folder, under the names that lead on to it. -/
def below (d : Disk) (loc : Location) : List (List (List Char) × Entry) :=
  d.entries.filterMap fun (l, e) =>
    if loc.isPrefixOf l && l ≠ loc then some (l.drop loc.length, e) else none

def foldersBelow (d : Disk) (loc : Location) : List (List (List Char)) :=
  (d.below loc).filterMap fun (names, e) => if e = .folder then some names else none

def filesBelow (d : Disk) (loc : Location) : List (List (List Char) × ByteArray) :=
  (d.below loc).filterMap fun (names, e) =>
    match e with
    | .file bytes => some (names, bytes)
    | .folder => none

theorem mem_below : (names, e) ∈ d.below loc ↔ names ≠ [] ∧ (loc ++ names, e) ∈ d.entries := by
  unfold below
  rw [List.mem_filterMap]
  constructor
  · rintro ⟨⟨l, x⟩, hx, hfound⟩
    simp only at hfound
    split at hfound
    · rename_i hbelow
      obtain ⟨rfl, rfl⟩ := Prod.mk.inj (Option.some.inj hfound)
      obtain ⟨⟨names, rfl⟩, hproper⟩ : loc <+: l ∧ l ≠ loc := by simpa using hbelow
      rw [List.drop_left]
      exact ⟨fun hnil => hproper (by rw [hnil, List.append_nil]), hx⟩
    · cases hfound
  · rintro ⟨hne, hx⟩
    refine ⟨_, hx, ?_⟩
    simp [hne]

theorem walkFrom_eq (d : Disk) (root : Path) (loc : Location) :
    d.walkFrom root loc =
      ⟨root, .folder⟩ :: (d.below loc).map fun x => ⟨descend root x.1, x.2⟩ := by
  unfold walkFrom below
  rw [List.map_filterMap]
  congr 2
  funext x
  simp only
  split <;> rfl

theorem mem_filesBelow {bytes : ByteArray} :
    (names, bytes) ∈ d.filesBelow loc ↔ (names, .file bytes) ∈ d.below loc := by
  unfold filesBelow
  rw [List.mem_filterMap]
  constructor
  · rintro ⟨⟨other, x⟩, hx, hfound⟩
    cases x with
    | folder => cases hfound
    | file content =>
      obtain ⟨rfl, rfl⟩ := Prod.mk.inj (Option.some.inj hfound)
      exact hx
  · intro hx
    exact ⟨_, hx, rfl⟩

theorem append_lt_append {a b : Location} : loc ++ a < loc ++ b ↔ a < b := by
  induction loc with
  | nil => rfl
  | cons name loc ih => simp [ih]

/-- The order of what is found is that of the names. -/
theorem IsDirectory.sorted_below (hd : d.IsDirectory) (loc : Location) :
    (d.below loc).Pairwise fun x y => x.1 < y.1 := by
  unfold below
  rw [List.pairwise_filterMap]
  refine hd.sorted.imp fun {x y} hlt a ha b hb => ?_
  simp only at ha hb
  split at ha
  · rename_i hx
    split at hb
    · rename_i hy
      obtain ⟨⟨m, hm⟩, -⟩ : loc <+: x.1 ∧ x.1 ≠ loc := by simpa using hx
      obtain ⟨⟨n, hn⟩, -⟩ : loc <+: y.1 ∧ y.1 ≠ loc := by simpa using hy
      rw [← Option.some.inj ha, ← Option.some.inj hb]
      rw [← hm, ← hn] at hlt ⊢
      simpa using append_lt_append.mp hlt
    · cases hb
  · cases ha

theorem IsDirectory.sorted_filesBelow (hd : d.IsDirectory) (loc : Location) :
    (d.filesBelow loc).Pairwise fun x y => x.1 < y.1 := by
  unfold filesBelow
  rw [List.pairwise_filterMap]
  refine (hd.sorted_below loc).imp fun {x y} hlt a ha b hb => ?_
  obtain ⟨names, e⟩ := x
  obtain ⟨others, e'⟩ := y
  cases e with
  | folder => cases ha
  | file bytes =>
    cases e' with
    | folder => cases hb
    | file bytes' =>
      rw [← Option.some.inj ha, ← Option.some.inj hb]
      exact hlt

/-- A path that is too long for any request. -/
def isTooLong (p : Path) : Bool := maxPathBytes < byteLength p.chars

/-- A walk ends at the first folder whose path is too long. -/
theorem walk_of_folder (hroot : d.resolve root = .ok (.present loc .folder)) :
    d.walk root =
      match (d.foldersBelow loc).find? (isTooLong <| descend root ·) with
      | some names => .error ⟨descend root names, .nameTooLong⟩
      | none => .ok (d.walkFrom root loc) := by
  have hlisted : Visit.isUnlistable ⟨root, .folder⟩ = false := by
    have hshort := (checkPath_eq_ok.mp (resolve_eq_ok.mp hroot).1).2.2
    simp [Visit.isUnlistable, hshort]
  have hfind : (d.walkFrom root loc).find? Visit.isUnlistable =
      ((d.foldersBelow loc).find? (isTooLong <| descend root ·)).map
        fun names => ⟨descend root names, .folder⟩ := by
    rw [walkFrom_eq, List.find?_cons, hlisted, foldersBelow]
    induction d.below loc with
    | nil => rfl
    | cons x rest ih =>
      obtain ⟨names, e⟩ := x
      cases e with
      | file bytes =>
        rw [List.map_cons, List.find?_cons_of_neg (by simp [Visit.isUnlistable])]
        exact ih
      | folder =>
        by_cases hlong : isTooLong (descend root names) = true
        · have hlisted : Visit.isUnlistable ⟨descend root names, .folder⟩ = true := by
            simpa [Visit.isUnlistable, isTooLong] using hlong
          simp [hlong, hlisted]
        · have hlisted : ¬ Visit.isUnlistable ⟨descend root names, .folder⟩ = true := by
            simpa [Visit.isUnlistable, isTooLong] using hlong
          simpa [hlong, hlisted] using ih
  unfold walk
  simp only [hroot, hfind]
  cases (d.foldersBelow loc).find? (isTooLong <| descend root ·) <;> rfl

end Disk

namespace Project

variable {d : Disk} {root projectFile : Path} {loc : Location}

/-- The files below a project other than its own module file. -/
def otherFilesBelow (d : Disk) (loc : Location) : List (List (List Char) × ByteArray) :=
  (d.filesBelow loc).filter (·.1 ≠ [moduleFileName.toList])

theorem same_descend_iff (hname : isModuleFile projectFile = true) {names : List (List Char)}
    (hnames : ∀ name ∈ names, Path.IsName name) :
    (Disk.descend (folderOf projectFile) names).same projectFile = true ↔
      names = [moduleFileName.toList] := by
  unfold Path.same
  rw [decide_eq_true_iff, Disk.parts_descend hnames, parts_of_isModuleFile hname,
    List.append_cancel_left_eq]
  constructor
  · intro h
    exact List.map_injective_iff.mpr (fun _ _ => Path.Part.name.inj) h
  · rintro rfl
    rfl

/-- A walk through the folder of a project finds the other files below it. -/
theorem otherFiles_eq (hd : d.IsDirectory) (hname : isModuleFile projectFile = true) :
    otherFiles projectFile (d.walkFrom (folderOf projectFile) loc) =
      (otherFilesBelow d loc).map (Disk.descend (folderOf projectFile) ·.1) := by
  have hnamed : ∀ x ∈ d.below loc, ∀ name ∈ x.1, Path.IsName name := fun x hx name hin =>
    hd.named _ (Disk.mem_below.mp hx).2 name (List.mem_append_right _ hin)
  rw [Disk.walkFrom_eq, otherFiles, otherFilesBelow, Disk.filesBelow, List.filterMap_cons]
  simp only
  generalize d.below loc = found at hnamed ⊢
  induction found with
  | nil => rfl
  | cons x rest ih =>
    have hrest := ih fun y hy => hnamed y (List.mem_cons_of_mem _ hy)
    obtain ⟨names, e⟩ := x
    cases e with
    | folder => simpa using hrest
    | file bytes =>
      have hsame := same_descend_iff hname (hnamed (names, .file bytes) List.mem_cons_self)
      by_cases hown : names = [moduleFileName.toList]
      · rw [List.map_cons, List.filterMap_cons_none (by simp [hsame.mpr hown])]
        simpa [hown] using hrest
      · have hother : (Disk.descend (folderOf projectFile) names).same projectFile = false := by
          simpa using mt hsame.mp hown
        simpa [hother, hown] using hrest

theorem scan_of_folder (hd : d.IsDirectory) (hname : isModuleFile projectFile = true)
    (hroot : d.resolve (folderOf projectFile) = .ok (.present loc .folder)) :
    scan d (folderOf projectFile) projectFile =
      match (d.foldersBelow loc).find?
          (Disk.isTooLong <| Disk.descend (folderOf projectFile) ·) with
      | some names => .error (.unscannable (folderOf projectFile)
          ⟨Disk.descend (folderOf projectFile) names, .nameTooLong⟩)
      | none => .ok ((otherFilesBelow d loc).map (Disk.descend (folderOf projectFile) ·.1)) := by
  rw [scan, Disk.walk_of_folder hroot, ← otherFiles_eq hd hname]
  cases (d.foldersBelow loc).find? (Disk.isTooLong <| Disk.descend (folderOf projectFile) ·) <;> rfl

theorem depth_descend (root : Path) {names : List (List Char)}
    (hnames : ∀ name ∈ names, Path.IsName name) :
    (Disk.descend root names).depth = root.depth + names.length := by
  rw [Path.depth, Disk.parts_descend hnames, List.length_append, List.length_map]
  rfl

/-- Modules are loaded in the order of their depth below the project. -/
theorem moduleFiles_eq (hd : d.IsDirectory) (root : Path) (loc : Location) :
    moduleFiles ((otherFilesBelow d loc).map (Disk.descend root ·.1)) =
      (inOrderOf (·.1.length)
        ((otherFilesBelow d loc).filter (isModuleFile <| Disk.descend root ·.1))).map
          (Disk.descend root ·.1) := by
  have hnamed : ∀ x ∈ (otherFilesBelow d loc).filter (isModuleFile <| Disk.descend root ·.1),
      ∀ name ∈ x.1, Path.IsName name := by
    intro x hx name hin
    have hbelow := Disk.mem_filesBelow.mp (List.mem_filter.mp (List.mem_filter.mp hx).1).1
    exact hd.named _ (Disk.mem_below.mp hbelow).2 name (List.mem_append_right _ hin)
  rw [moduleFiles, List.filter_map, ← mergeSort_eq_inOrderOf]
  refine (List.map_mergeSort fun a ha b hb => ?_).symm
  rw [depth_descend root (hnamed a ha), depth_descend root (hnamed b hb)]
  simp

end Project

end ModuleCompiler
