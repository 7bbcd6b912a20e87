import Mathlib.Data.Set.Basic
import ModuleCompiler.Proofs.Edits

/-!
One folder laid over another. What lies below the source comes to lie at the same names below the
target, and what only the target has stays. The copy of an entry depends on nothing but what lies at
and below it on the two sides, and changes nothing elsewhere; so entries that follow each other can
be looked at one by one, and the copy as a whole succeeds exactly if each of them can be made.
-/

namespace ModuleCompiler.Disk

variable {d c c' : Disk} {p root source target : Path} {loc a b : Location} {name : List Char}
  {names : List (List Char)} {e : Entry} {bytes : ByteArray}

/-- Neither of two places is at or below the other. -/
def Apart (a b : Location) : Prop := ¬ a <+: b ∧ ¬ b <+: a

instance (a b : Location) : Decidable (Apart a b) := inferInstanceAs (Decidable (_ ∧ _))

theorem Apart.append (h : Apart a b) (x y : Location) : Apart (a ++ x) (b ++ y) := by
  have hmeet : ∀ {l}, a <+: l → b <+: l → False := fun ha hb =>
    (List.prefix_or_prefix_of_prefix ha hb).elim h.1 h.2
  refine ⟨fun hab => ?_, fun hba => ?_⟩
  · exact hmeet ((List.prefix_append ..).trans hab) (List.prefix_append ..)
  · exact hmeet (List.prefix_append ..) ((List.prefix_append ..).trans hba)

theorem Apart.ne (h : Apart a b) (x y : Location) : a ++ x ≠ b ++ y :=
  fun heq => (h.append x y).1 (heq ▸ List.prefix_rfl)

/-- A folder is listed by its entries, without the way that leads to it. -/
theorem map_list (d : Disk) (loc : Location) :
    ((d.list loc).map fun x => (loc ++ [x.1], x.2)) =
      d.entries.filter fun x => decide (x.1 ≠ [] ∧ x.1.dropLast = loc) := by
  rw [list, List.map_filterMap, ← List.filterMap_eq_filter]
  refine List.filterMap_congr ?_
  rintro ⟨l, e⟩ -
  rcases List.eq_nil_or_concat' l with rfl | ⟨init, last, rfl⟩
  · simp [Option.guard]
  · by_cases hinit : init = loc
    · simp [hinit]
    · simp [hinit, Option.guard]

theorem IsDirectory.mem_list (hd : d.IsDirectory) :
    (name, e) ∈ d.list loc ↔ d.entryAt? (loc ++ [name]) = some e := by
  have hinj : Function.Injective fun x : List Char × Entry => (loc ++ [x.1], x.2) := by
    rintro ⟨name, e⟩ ⟨other, x⟩ heq
    simpa using heq
  rw [hd.entryAt?_iff (by simp), ← List.mem_map_of_injective hinj, map_list, List.mem_filter]
  simp

/-- No folder holds a name twice. -/
theorem IsDirectory.nodup_list (hd : d.IsDirectory) (loc : Location) :
    ((d.list loc).map Prod.fst).Nodup := by
  have hplaces : (((d.list loc).map fun x => (loc ++ [x.1], x.2)).map Prod.fst).Nodup := by
    rw [map_list]
    exact hd.isTree.nodup.sublist (List.filter_sublist.map _)
  have hnames : ((d.list loc).map fun x => (loc ++ [x.1], x.2)).map Prod.fst =
      ((d.list loc).map Prod.fst).map fun name => loc ++ [name] := by
    rw [List.map_map, List.map_map]
    rfl
  rw [hnames] at hplaces
  exact hplaces.of_map _

/-- Nothing lies below a file. -/
theorem IsDirectory.entryAt?_below_file (hd : d.IsDirectory)
    (h : d.entryAt? loc = some (.file bytes)) (hnames : names ≠ []) :
    d.entryAt? (loc ++ names) = none := by
  by_contra hsome
  obtain ⟨e, he⟩ := Option.ne_none_iff_exists'.mp hsome
  have hne : loc ++ names ≠ [] := List.append_ne_nil_of_right_ne_nil _ hnames
  have habove := (hd.reached (mem_of_entryAt? hne he) hne).above loc (List.prefix_append ..)
    fun heq => hnames (List.append_cancel_left (heq.symm.trans (List.append_nil loc).symm))
  rw [h] at habove
  cases habove

theorem getLast?_join (hname : Path.IsName name) :
    (p.join ⟨name⟩).chars.getLast? ≠ some '/' := by
  have hlast : name.getLast? ≠ some '/' := fun h => hname.2.2.2 (List.mem_of_getLast? h)
  rw [Path.join_name hname.2.2.2]
  split
  · exact hlast
  · split
    · rwa [List.getLast?_append_of_ne_nil _ hname.1]
    · rwa [List.append_cons, List.getLast?_append_of_ne_nil _ hname.1]

theorem byteLength_join (hname : Path.IsName name) :
    byteLength p.chars + 1 ≤ byteLength (p.join ⟨name⟩).chars := by
  have hpos : 1 ≤ byteLength name := by
    obtain ⟨x, rest, rfl⟩ := List.exists_cons_of_ne_nil hname.1
    have := Char.utf8Size_pos x
    rw [byteLength]
    omega
  rw [Path.join_name hname.2.2.2]
  split
  · rename_i hnil
    rw [hnil]
    simpa [byteLength] using hpos
  · split
    · rw [byteLength_append]
      omega
    · rw [byteLength_append, byteLength]
      omega

/-- Looking up a name in a folder that a path leads to. -/
theorem resolve_join (hp : c.isFolder p = true) (hspot : Spot c p.place name) :
    c.resolve (p.join ⟨name⟩) =
      if maxPathBytes < byteLength (p.join ⟨name⟩).chars then .error .nameTooLong
      else match c.entryAt? (p.place ++ [name]) with
        | some e => .ok (.present (p.place ++ [name]) e)
        | none => .ok (.absent p.place name) := by
  obtain ⟨hcheck, hfollow⟩ := resolve_eq_ok.mp (isFolder_iff.mp hp)
  obtain ⟨hnul, hne, -⟩ := checkPath_eq_ok.mp hcheck
  have hname := hspot.isName
  have hfree : Char.ofNat 0 ∉ (p.join ⟨name⟩).chars := by
    intro h
    have h : Char.ofNat 0 ∈ (descend p [name]).chars := h
    rcases mem_chars_descend (by decide) (by simpa using hname) h with h | ⟨other, hother, h⟩
    · exact hnul h
    · exact hspot.noNul (List.mem_singleton.mp hother ▸ h)
  have hsome := chars_join_ne_nil hname p
  split
  · rename_i hlong
    have hrefused : checkPath (p.join ⟨name⟩) = .error .nameTooLong := by
      simp [checkPath, Path.isEmpty, hfree, hsome, hlong]
    rw [resolve, hrefused]
    rfl
  · rename_i hshort
    have hpassed := checkPath_eq_ok.mpr ⟨hfree, hsome, Nat.le_of_not_lt hshort⟩
    have hlook : c.follow [] .folder (Path.pieces (p.join ⟨name⟩).chars) =
        c.follow p.place .folder [name] := follow_join_name hne hfollow hname
    rw [resolve, hpassed]
    show c.follow [] .folder (Path.pieces (p.join ⟨name⟩).chars) = _
    rw [hlook, follow, if_neg (by simpa using ⟨hname.1, hname.2.1⟩), if_neg hname.2.2.1,
      if_neg (Nat.not_lt.mpr hspot.short)]
    cases c.entryAt? (p.place ++ [name]) <;> rfl

theorem resolveEntry_join (hname : Path.IsName name) :
    c.resolveEntry (p.join ⟨name⟩) = c.resolve (p.join ⟨name⟩) := by
  rw [resolveEntry, resolve, trimSlashes_pieces (chars_join_ne_nil hname p) (getLast?_join hname)]

theorem isFolder_join (hp : c.isFolder p = true) (hspot : Spot c p.place name)
    (h : c.entryAt? (p.place ++ [name]) = some .folder)
    (hshort : byteLength (p.join ⟨name⟩).chars ≤ maxPathBytes) :
    c.isFolder (p.join ⟨name⟩) = true := by
  rw [isFolder_iff, resolve_join hp hspot, if_neg (Nat.not_lt.mpr hshort), h,
    Path.place_join hspot.isName]

theorem Extends.isFolder (h : Extends c c') (hp : c.isFolder p = true) : c'.isFolder p = true := by
  obtain ⟨hne, husable, hpaved⟩ := resolve_iff_paved.mp (isFolder_iff.mp hp)
  rw [isFolder_iff, resolve_iff_paved]
  exact ⟨hne, husable, fun l hl => h.folder l (hpaved l hl)⟩

/-- A folder that is there need not be made. -/
theorem makeFolders_there (h : c.isFolder p = true) : makeFolders p c = .ok () c := by
  obtain ⟨hcheck, hfollow⟩ := resolve_eq_ok.mp (isFolder_iff.mp h)
  obtain ⟨tail, hpieces, -⟩ := trimSlashes_append (Path.pieces p.chars)
  rw [hpieces] at hfollow
  obtain ⟨l, x, htrimmed⟩ := exists_follow_of_append hfollow
  have hwith : c.withFolder p = .error .alreadyExists := by
    rw [withFolder, resolveEntry_eq_ok.mpr ⟨hcheck, htrimmed⟩]
  have hempty : ¬ p.isEmpty = true := by
    simpa [Path.isEmpty] using chars_ne_nil_of_checkPath hcheck
  rw [makeFolders, if_neg hempty, hwith]
  exact if_pos h

section Name

variable (hp : c.isFolder p = true) (hspot : Spot c p.place name)
include hp hspot

theorem makeFolders_join (hc : c.IsDirectory)
    (hshort : byteLength (p.join ⟨name⟩).chars ≤ maxPathBytes)
    (hfree : ∀ bytes, c.entryAt? (p.place ++ [name]) ≠ some (.file bytes)) :
    ∃ c', makeFolders (p.join ⟨name⟩) c = .ok () c' ∧ c'.IsDirectory ∧
      ∀ l, c'.entryAt? l = if l = p.place ++ [name] then some .folder else c.entryAt? l := by
  cases hentry : c.entryAt? (p.place ++ [name]) with
  | none =>
    have hempty : ¬ (p.join ⟨name⟩).isEmpty = true := by
      simpa [Path.isEmpty] using chars_join_ne_nil hspot.isName p
    have hresolve := resolve_join hp hspot
    rw [if_neg (Nat.not_lt.mpr hshort), hentry] at hresolve
    refine ⟨_, ?_, hc.put hspot (Or.inl rfl), entryAt?_put (by simp) _⟩
    rw [makeFolders, if_neg hempty, withFolder, resolveEntry_join hspot.isName, hresolve]
  | some e =>
    cases e with
    | file bytes => exact absurd hentry (hfree bytes)
    | folder =>
      refine ⟨c, makeFolders_there (isFolder_join hp hspot hentry hshort), hc, fun l => ?_⟩
      split
      · rename_i hl
        rw [hl, hentry]
      · rfl

theorem makeFolders_join_refused (h : maxPathBytes < byteLength (p.join ⟨name⟩).chars ∨
      ∃ bytes, c.entryAt? (p.place ++ [name]) = some (.file bytes)) :
    ∃ error, makeFolders (p.join ⟨name⟩) c = .error error c := by
  have hresolve := resolve_join hp hspot
  have hempty : ¬ (p.join ⟨name⟩).isEmpty = true := by
    simpa [Path.isEmpty] using chars_join_ne_nil hspot.isName p
  have hmissing : c.isFolder (p.join ⟨name⟩) = false := by
    by_contra hfolder
    have hthere := isFolder_iff.mp (by simpa using hfolder)
    rcases h with hlong | ⟨bytes, hfile⟩
    · have hshort := (checkPath_eq_ok.mp (resolve_eq_ok.mp hthere).1).2.2
      omega
    · have hentry := (place_of_resolve hthere).2.entry
      rw [Path.place_join hspot.isName, hfile] at hentry
      cases hentry
  rw [makeFolders, if_neg hempty, withFolder, resolveEntry_join hspot.isName, hresolve]
  by_cases hlong : maxPathBytes < byteLength (p.join ⟨name⟩).chars
  · rw [if_pos hlong]
    exact ⟨_, if_neg (by simp [hmissing])⟩
  · obtain ⟨bytes, hfile⟩ := h.resolve_left hlong
    rw [if_neg hlong, hfile]
    exact ⟨_, if_neg (by simp [hmissing])⟩

theorem writeFile_join (hshort : byteLength (p.join ⟨name⟩).chars ≤ maxPathBytes)
    (hfree : c.entryAt? (p.place ++ [name]) ≠ some .folder) (bytes : ByteArray) :
    writeFile (p.join ⟨name⟩) bytes c = .ok () (c.put (p.place ++ [name]) (.file bytes)) := by
  have hlast := getLast?_join (p := p) hspot.isName
  have hresolve := resolve_join hp hspot
  rw [if_neg (Nat.not_lt.mpr hshort)] at hresolve
  unfold writeFile
  rw [get_bind_run, resolveEntry_join hspot.isName, hresolve]
  cases hentry : c.entryAt? (p.place ++ [name]) with
  | none =>
    simp only [if_neg hlast]
    rfl
  | some e =>
    cases e with
    | folder => exact absurd hentry hfree
    | file old =>
      simp only [if_neg hlast]
      rfl

theorem writeFile_join_refused (h : maxPathBytes < byteLength (p.join ⟨name⟩).chars ∨
      c.entryAt? (p.place ++ [name]) = some .folder) (bytes : ByteArray) :
    ∃ error, writeFile (p.join ⟨name⟩) bytes c = .error error c := by
  unfold writeFile
  rw [get_bind_run, resolveEntry_join hspot.isName, resolve_join hp hspot]
  by_cases hlong : maxPathBytes < byteLength (p.join ⟨name⟩).chars
  · rw [if_pos hlong]
    exact ⟨_, rfl⟩
  · rw [if_neg hlong, h.resolve_left hlong]
    exact ⟨_, rfl⟩

theorem readFile_join (h : c.entryAt? (p.place ++ [name]) = some (.file bytes)) :
    readFile (p.join ⟨name⟩) c =
      if maxPathBytes < byteLength (p.join ⟨name⟩).chars then .error .nameTooLong c
      else .ok bytes c := by
  unfold readFile Disk.read
  rw [resolve_join hp hspot, h]
  by_cases hlong : maxPathBytes < byteLength (p.join ⟨name⟩).chars
  · rw [if_pos hlong, if_pos hlong]
    rfl
  · rw [if_neg hlong, if_neg hlong]
    rfl

end Name

/-- Of what lies below the source, the part at some names has been laid over what lies below the
target, and all else is as it was. -/
structure Overlaid (c c' : Disk) (source target : Path) (part : Set (List (List Char))) : Prop where
  isDirectory : c'.IsDirectory
  inside : ∀ names ∈ part, c'.entryAt? (target.place ++ names) =
    (c.entryAt? (source.place ++ names)).or (c.entryAt? (target.place ++ names))
  outside : ∀ l, (∀ names ∈ part, l ≠ target.place ++ names) → c'.entryAt? l = c.entryAt? l

/-- What lies at some names below the source can be laid over what lies below the target: paths to
it are not too long on either side, and no folder meets a file. -/
structure Conforms (c : Disk) (source target : Path) (part : Set (List (List Char))) : Prop where
  short : ∀ names ∈ part, ∀ e, c.entryAt? (source.place ++ names) = some e →
    byteLength (descend source names).chars ≤ maxPathBytes ∧
      byteLength (descend target names).chars ≤ maxPathBytes
  alike : ∀ names ∈ part, ∀ e x, c.entryAt? (source.place ++ names) = some e →
    c.entryAt? (target.place ++ names) = some x → (e = .folder ↔ x = .folder)

/-- What came of a copy of a part: it was made if that can be done, and else refused. -/
inductive Copying (c : Disk) (source target : Path) (part : Set (List (List Char))) :
    EStateM.Result FolderError Disk Unit → Prop
  | done {c' : Disk} (conforms : Conforms c source target part)
      (overlaid : Overlaid c c' source target part) : Copying c source target part (.ok () c')
  | refused {error : FolderError} {c' : Disk} (offends : ¬ Conforms c source target part) :
      Copying c source target part (.error error c')

variable {part more : Set (List (List Char))}

theorem Overlaid.refl (hc : c.IsDirectory) (source target : Path) :
    Overlaid c c source target ∅ := ⟨hc, fun _ h => h.elim, fun _ _ => rfl⟩

theorem Overlaid.source_eq (h : Overlaid c c' source target part)
    (hapart : Apart source.place target.place) (names : List (List Char)) :
    c'.entryAt? (source.place ++ names) = c.entryAt? (source.place ++ names) :=
  h.outside _ fun other _ => hapart.ne names other

theorem Overlaid.target_eq (h : Overlaid c c' source target part) (hnames : names ∉ part) :
    c'.entryAt? (target.place ++ names) = c.entryAt? (target.place ++ names) := by
  refine h.outside _ fun other hother heq => hnames ?_
  rwa [List.append_cancel_left heq]

/-- A disk grows by an overlay. -/
theorem Overlaid.grown (h : Overlaid c c' source target part)
    (hconforms : Conforms c source target part) : Extends c c' := by
  have hkind : ∀ l x, c.entryAt? l = some x →
      ∃ y, c'.entryAt? l = some y ∧ (y = .folder ↔ x = .folder) := by
    intro l x hx
    by_cases hl : ∃ names ∈ part, l = target.place ++ names
    · obtain ⟨names, hnames, rfl⟩ := hl
      rw [h.inside names hnames, hx]
      cases he : c.entryAt? (source.place ++ names) with
      | none => exact ⟨x, rfl, Iff.rfl⟩
      | some e => exact ⟨e, rfl, hconforms.alike names hnames e x he hx⟩
    · rw [h.outside l fun names hnames heq => hl ⟨names, hnames, heq⟩]
      exact ⟨x, hx, Iff.rfl⟩
  constructor
  · intro l hl
    obtain ⟨y, hy, hkind⟩ := hkind l _ hl
    rw [hy, hkind.mpr rfl]
  · intro l bytes hl
    obtain ⟨y, hy, hkind⟩ := hkind l _ hl
    cases y with
    | folder => cases hkind.mp rfl
    | file new => exact ⟨new, hy⟩

/-- Whether a part can be laid depends on that part only. -/
theorem Conforms.congr (hsource : ∀ names ∈ part, c'.entryAt? (source.place ++ names) =
      c.entryAt? (source.place ++ names))
    (htarget : ∀ names ∈ part, c'.entryAt? (target.place ++ names) =
      c.entryAt? (target.place ++ names)) :
    Conforms c' source target part ↔ Conforms c source target part := by
  constructor
  · intro h
    refine ⟨fun names hnames e he => ?_, fun names hnames e x he hx => ?_⟩
    · exact h.short names hnames e ((hsource names hnames).trans he)
    · exact h.alike names hnames e x ((hsource names hnames).trans he)
        ((htarget names hnames).trans hx)
  · intro h
    refine ⟨fun names hnames e he => ?_, fun names hnames e x he hx => ?_⟩
    · exact h.short names hnames e ((hsource names hnames).symm.trans he)
    · exact h.alike names hnames e x ((hsource names hnames).symm.trans he)
        ((htarget names hnames).symm.trans hx)

theorem conforms_union : Conforms c source target (part ∪ more) ↔
    Conforms c source target part ∧ Conforms c source target more := by
  constructor
  · intro h
    exact ⟨⟨fun names hnames => h.short names (Or.inl hnames),
        fun names hnames => h.alike names (Or.inl hnames)⟩,
      ⟨fun names hnames => h.short names (Or.inr hnames),
        fun names hnames => h.alike names (Or.inr hnames)⟩⟩
  · rintro ⟨h, h'⟩
    exact ⟨fun names hnames => hnames.elim (h.short names) (h'.short names),
      fun names hnames => hnames.elim (h.alike names) (h'.alike names)⟩

section Parts

variable (hapart : Apart source.place target.place) (hdisjoint : ∀ names ∈ more, names ∉ part)
include hapart hdisjoint

/-- An overlay of one part leaves what another one depends on. -/
theorem Overlaid.conforms_iff (h : Overlaid c c' source target part) :
    Conforms c' source target more ↔ Conforms c source target more :=
  Conforms.congr (fun names _ => h.source_eq hapart names)
    fun names hnames => h.target_eq (hdisjoint names hnames)

theorem Overlaid.trans {c'' : Disk} (h : Overlaid c c' source target part)
    (h' : Overlaid c' c'' source target more) :
    Overlaid c c'' source target (part ∪ more) := by
  refine ⟨h'.isDirectory, fun names hnames => ?_, fun l hl => ?_⟩
  · by_cases hmore : names ∈ more
    · rw [h'.inside names hmore, h.source_eq hapart, h.target_eq (hdisjoint names hmore)]
    · rw [h'.target_eq hmore, h.inside names (hnames.resolve_right hmore)]
  · rw [h'.outside l fun names hnames => hl names (Or.inr hnames),
      h.outside l fun names hnames => hl names (Or.inl hnames)]

/-- Copies of two parts, one after the other. -/
theorem Copying.bind {first rest : FolderAction Unit} (h : Copying c source target part (first c))
    (hrest : ∀ c', Conforms c source target part → Overlaid c c' source target part →
      Copying c' source target more (rest c')) :
    Copying c source target (part ∪ more) ((first >>= fun _ => rest) c) := by
  rw [bind_run]
  cases hfirst : first c with
  | error error c' =>
    rw [hfirst] at h
    cases h with
    | refused offends => exact .refused fun hall => offends (conforms_union.mp hall).1
  | ok u c' =>
    rw [hfirst] at h
    cases h with
    | done conforms overlaid =>
      have hnext := hrest c' conforms overlaid
      have hiff := overlaid.conforms_iff hapart hdisjoint
      show Copying c source target (part ∪ more) (rest c')
      cases hrun : rest c' with
      | ok u c'' =>
        rw [hrun] at hnext
        cases hnext with
        | done conforms' overlaid' =>
          exact .done (conforms_union.mpr ⟨conforms, hiff.mp conforms'⟩)
            (overlaid.trans hapart hdisjoint overlaid')
      | error error c'' =>
        rw [hrun] at hnext
        cases hnext with
        | refused offends =>
          exact .refused fun hall => offends (hiff.mpr (conforms_union.mp hall).2)

end Parts

/-- Where the source has nothing, nothing needs to be copied. -/
theorem Copying.widen {result : EStateM.Result FolderError Disk Unit}
    (h : Copying c source target part result)
    (hnone : ∀ names, names ∉ part → c.entryAt? (source.place ++ names) = none) :
    Copying c source target Set.univ result := by
  cases h with
  | done conforms overlaid =>
    have hpart : ∀ {names e}, c.entryAt? (source.place ++ names) = some e → names ∈ part := by
      intro names e he
      by_contra hnames
      rw [hnone names hnames] at he
      cases he
    refine .done ⟨fun names _ e he => conforms.short names (hpart he) e he,
      fun names _ e x he => conforms.alike names (hpart he) e x he⟩
      ⟨overlaid.isDirectory, fun names _ => ?_, fun l hl => ?_⟩
    · by_cases hnames : names ∈ part
      · exact overlaid.inside names hnames
      · rw [hnone names hnames, overlaid.target_eq hnames]
        rfl
    · exact overlaid.outside l fun names _ => hl names trivial
  | refused offends =>
    exact .refused fun hall => offends ⟨fun names _ => hall.short names trivial,
      fun names _ => hall.alike names trivial⟩

theorem conforms_single (he : c.entryAt? source.place = some e) :
    Conforms c source target {[]} ↔
      (byteLength source.chars ≤ maxPathBytes ∧ byteLength target.chars ≤ maxPathBytes) ∧
        ∀ x, c.entryAt? target.place = some x → (e = .folder ↔ x = .folder) := by
  constructor
  · intro h
    refine ⟨h.short [] rfl e (by rwa [List.append_nil]), fun x hx => ?_⟩
    exact h.alike [] rfl e x (by rwa [List.append_nil]) (by rwa [List.append_nil])
  · rintro ⟨hshort, halike⟩
    refine ⟨?_, ?_⟩
    · rintro _ rfl _ _
      exact hshort
    · rintro _ rfl e' x he' hx
      rw [List.append_nil] at he' hx
      rw [he] at he'
      obtain rfl := Option.some.inj he'
      exact halike x hx

theorem overlaid_single (hc' : c'.IsDirectory) (he : c.entryAt? source.place = some e)
    (hview : ∀ l, c'.entryAt? l = if l = target.place then some e else c.entryAt? l) :
    Overlaid c c' source target {[]} := by
  refine ⟨hc', ?_, fun l hl => ?_⟩
  · rintro _ rfl
    rw [List.append_nil, List.append_nil, hview, if_pos rfl, he]
    rfl
  · rw [hview, if_neg fun h => hl [] rfl (h.trans (List.append_nil _).symm)]

section Entry

variable (hc : c.IsDirectory) (hsource : c.isFolder source = true)
  (htarget : c.isFolder target = true)
include hc htarget

/-- A name that an entry has can be given to one in another folder. -/
theorem spot_beside (he : c.entryAt? (loc ++ [name]) = some e) : Spot c target.place name := by
  have hspot := hc.spot he
  exact ⟨(place_of_resolve (isFolder_iff.mp htarget)).2.entry, hspot.isName, hspot.short,
    hspot.noNul⟩

/-- A folder is made for a folder, if its path can be listed and no file is there. -/
theorem createFolder_copying (root : Path)
    (he : c.entryAt? (source.place ++ [name]) = some .folder) :
    Copying c (source.join ⟨name⟩) (target.join ⟨name⟩) {[]}
      ((createFolder (target.join ⟨name⟩) >>= fun _ =>
        checkListable root (source.join ⟨name⟩)) c) := by
  have hspot := spot_beside hc htarget he
  have hplace := Path.place_join hspot.isName target
  rw [← Path.place_join hspot.isName source] at he
  by_cases hbad : maxPathBytes < byteLength (target.join ⟨name⟩).chars ∨
      ∃ bytes, c.entryAt? (target.place ++ [name]) = some (.file bytes)
  · obtain ⟨error, hrun⟩ := makeFolders_join_refused htarget hspot hbad
    rw [bind_run]
    simp only [createFolder, Action.within, hrun]
    refine .refused fun h => ?_
    obtain ⟨⟨-, hshort⟩, halike⟩ := (conforms_single he).mp h
    rcases hbad with hlong | ⟨bytes, hfile⟩
    · omega
    · cases (halike _ (hplace ▸ hfile)).mp rfl
  · obtain ⟨hshort, hfree⟩ := not_or.mp hbad
    obtain ⟨c', hrun, hc', hview⟩ := makeFolders_join htarget hspot hc (Nat.not_lt.mp hshort)
      (not_exists.mp hfree)
    rw [← hplace] at hview hfree
    rw [bind_run]
    simp only [createFolder, Action.within, hrun, checkListable]
    split
    · rename_i hlong
      refine .refused fun h => ?_
      have hlistable := ((conforms_single he).mp h).1.1
      omega
    · rename_i hlistable
      refine .done ((conforms_single he).mpr ⟨⟨by omega, by omega⟩, fun x hx => ?_⟩)
        (overlaid_single hc' he hview)
      cases x with
      | folder => exact Iff.rfl
      | file bytes => exact absurd hx (not_exists.mp hfree bytes)

include hsource

/-- Once a folder is made for a folder, the paths of both lead to them. -/
theorem isFolder_of_overlaid
    (hapart : Apart (source.join ⟨name⟩).place (target.join ⟨name⟩).place)
    (he : c.entryAt? (source.place ++ [name]) = some .folder)
    (conforms : Conforms c (source.join ⟨name⟩) (target.join ⟨name⟩) {[]})
    (overlaid : Overlaid c c' (source.join ⟨name⟩) (target.join ⟨name⟩) {[]}) :
    c'.isFolder (source.join ⟨name⟩) = true ∧ c'.isFolder (target.join ⟨name⟩) = true := by
  have hname := (hc.spot he).isName
  have hsplace := Path.place_join hname source
  have hgrown := overlaid.grown conforms
  have hc' := overlaid.isDirectory
  have hmade := overlaid.inside [] rfl
  rw [List.append_nil, List.append_nil, hsplace, Path.place_join hname target, he] at hmade
  have hkept : c'.entryAt? (source.place ++ [name]) = some .folder := by
    have hsame := overlaid.source_eq hapart []
    rwa [List.append_nil, hsplace, he] at hsame
  obtain ⟨hlistable, hshort⟩ := conforms.short [] rfl .folder (by rwa [List.append_nil, hsplace])
  exact ⟨isFolder_join (hgrown.isFolder hsource) (hc'.spot hkept) hkept hlistable,
    isFolder_join (hgrown.isFolder htarget) (hc'.spot hmade) hmade hshort⟩

/-- A file is filled in two steps, and the second still finds what the first one read. -/
theorem fillFrom_join (hapart : Apart source.place target.place)
    (he : c.entryAt? (source.place ++ [name]) = some (.file bytes))
    (hreadable : byteLength (source.join ⟨name⟩).chars ≤ maxPathBytes)
    (hshort : byteLength (target.join ⟨name⟩).chars ≤ maxPathBytes)
    (hfree : c.entryAt? (target.place ++ [name]) ≠ some .folder) :
    ∃ c', fillFrom (source.join ⟨name⟩) (target.join ⟨name⟩) c = .ok () c' ∧ c'.IsDirectory ∧
      ∀ l, c'.entryAt? l =
        if l = target.place ++ [name] then some (.file bytes) else c.entryAt? l := by
  have hspot := spot_beside hc htarget he
  have hne : target.place ++ [name] ≠ [] := by simp
  have hread := readFile_join hsource (hc.spot he) he
  rw [if_neg (Nat.not_lt.mpr hreadable)] at hread
  -- Between the two steps the file is empty.
  let c₁ := c.put (target.place ++ [name]) (.file ByteArray.empty)
  have hview₁ : ∀ l, c₁.entryAt? l =
      if l = target.place ++ [name] then some (.file ByteArray.empty) else c.entryAt? l :=
    entryAt?_put hne _
  have hc₁ : c₁.IsDirectory := hc.put hspot (Or.inr hfree)
  have hgrown : Extends c c₁ := extends_put hne hfree _
  have he₁ : c₁.entryAt? (source.place ++ [name]) = some (.file bytes) := by
    rw [hview₁, if_neg (hapart.ne [name] [name]), he]
  have hfree₁ : c₁.entryAt? (target.place ++ [name]) ≠ some .folder := by
    rw [hview₁, if_pos rfl]
    simp
  have htarget₁ := hgrown.isFolder htarget
  have hspot₁ := spot_beside hc₁ htarget₁ he₁
  have hread₁ := readFile_join (hgrown.isFolder hsource) (hc₁.spot he₁) he₁
  rw [if_neg (Nat.not_lt.mpr hreadable)] at hread₁
  refine ⟨c₁.put (target.place ++ [name]) (.file bytes), ?_, hc₁.put hspot₁ (Or.inr hfree₁),
    fun l => ?_⟩
  · unfold fillFrom
    rw [bind_run_ok (discard_run_ok hread),
      bind_run_ok (writeFile_join htarget hspot hshort hfree _), bind_run_ok hread₁]
    exact writeFile_join htarget₁ hspot₁ hshort hfree₁ _
  · rw [entryAt?_put hne]
    split
    · rfl
    · rename_i hl
      rw [hview₁, if_neg hl]

/-- A file is copied for a file, if both paths are short enough and no folder is there. -/
theorem copyFile_copying (hapart : Apart source.place target.place)
    (he : c.entryAt? (source.place ++ [name]) = some (.file bytes)) :
    Copying c (source.join ⟨name⟩) (target.join ⟨name⟩) {[]}
      (copyFile (source.join ⟨name⟩) (target.join ⟨name⟩) c) := by
  have hspot := spot_beside hc htarget he
  have hplace := Path.place_join hspot.isName target
  have hread := readFile_join hsource (hc.spot he) he
  have he' := he
  rw [← Path.place_join hspot.isName source] at he'
  unfold copyFile Action.within
  by_cases hlong : maxPathBytes < byteLength (source.join ⟨name⟩).chars
  · rw [if_pos hlong] at hread
    have hrun : fillFrom (source.join ⟨name⟩) (target.join ⟨name⟩) c = .error .nameTooLong c := by
      unfold fillFrom
      rw [bind_run, discard_run, hread]
    rw [hrun]
    refine .refused fun h => ?_
    have hreadable := ((conforms_single he').mp h).1.1
    omega
  rw [if_neg hlong] at hread
  by_cases hbad : maxPathBytes < byteLength (target.join ⟨name⟩).chars ∨
      c.entryAt? (target.place ++ [name]) = some .folder
  · obtain ⟨error, hwrite⟩ := writeFile_join_refused htarget hspot hbad ByteArray.empty
    have hrun : fillFrom (source.join ⟨name⟩) (target.join ⟨name⟩) c = .error error c := by
      unfold fillFrom
      rw [bind_run_ok (discard_run_ok hread), bind_run_error hwrite]
    rw [hrun]
    refine .refused fun h => ?_
    obtain ⟨⟨-, hshort⟩, halike⟩ := (conforms_single he').mp h
    rcases hbad with hlong | hfolder
    · omega
    · cases (halike _ (hplace ▸ hfolder)).mpr rfl
  · obtain ⟨hshort, hfree⟩ := not_or.mp hbad
    obtain ⟨c', hrun, hc', hview⟩ := fillFrom_join hc hsource htarget hapart he
      (Nat.not_lt.mp hlong) (Nat.not_lt.mp hshort) hfree
    rw [← hplace] at hview hfree
    rw [hrun]
    refine .done ((conforms_single he').mpr ⟨⟨by omega, by omega⟩, fun x hx => ?_⟩)
      (overlaid_single hc' he' hview)
    refine ⟨fun h => ?_, fun h => ?_⟩
    · cases h
    · exact absurd (h ▸ hx) hfree

end Entry

/-- The names that lead to some entries of a folder, and on to what lies below them. -/
def under (items : List (List Char)) : Set (List (List Char)) :=
  {names | ∃ name ∈ items, [name] <+: names}

/-- The names that lead to all that lies below a folder. -/
abbrev contents (d : Disk) (loc : Location) : Set (List (List Char)) :=
  under ((d.list loc).map Prod.fst)

theorem under_cons (name : List Char) (items : List (List Char)) :
    under (name :: items) = under [name] ∪ under items := by
  ext names
  simp [under]

theorem ne_nil_of_mem_under {items : List (List Char)} (h : names ∈ under items) : names ≠ [] := by
  rintro rfl
  obtain ⟨name, -, hfirst⟩ := h
  cases List.prefix_nil.mp hfirst

theorem not_mem_under {items : List (List Char)} (hname : name ∉ items) (h : names ∈ under items) :
    names ∉ under [name] := by
  obtain ⟨other, hother, hfirst⟩ := h
  rintro ⟨_, hin, hsecond⟩
  obtain rfl := List.mem_singleton.mp hin
  have heq := List.prefix_of_prefix_length_le hfirst hsecond (Nat.le_refl _) |>.eq_of_length rfl
  exact hname ((List.cons.inj heq).1 ▸ hother)

/-- What lies below a folder lies at or below what the folder is listed with. -/
theorem IsDirectory.mem_contents (hd : d.IsDirectory) (hnames : names ≠ [])
    (he : d.entryAt? (loc ++ names) = some e) : names ∈ contents d loc := by
  obtain ⟨name, rest, rfl⟩ := List.exists_cons_of_ne_nil hnames
  have hne : loc ++ name :: rest ≠ [] := by simp
  have hfirst : loc ++ [name] <+: loc ++ name :: rest := by simp
  obtain ⟨x, hx⟩ := (hd.reached (mem_of_entryAt? hne he) hne).exists_above hfirst
  exact ⟨name, List.mem_map.mpr ⟨(name, x), hd.mem_list.mpr hx, rfl⟩, by simp⟩

theorem IsDirectory.entryAt?_of_not_listed (hd : d.IsDirectory)
    (h : names ∉ {[]} ∪ contents d loc) : d.entryAt? (loc ++ names) = none := by
  by_contra hsome
  obtain ⟨e, he⟩ := Option.ne_none_iff_exists'.mp hsome
  obtain ⟨hnames, hout⟩ := not_or.mp h
  exact hout (hd.mem_contents hnames he)

theorem cons_mem_under (name : List Char) (names : List (List Char)) :
    name :: names ∈ under [name] := ⟨name, List.mem_singleton_self name, by simp⟩

theorem exists_of_mem_under (h : names ∈ under [name]) : ∃ rest, names = name :: rest := by
  obtain ⟨_, hname, rest, rfl⟩ := h
  obtain rfl := List.mem_singleton.mp hname
  exact ⟨rest, rfl⟩

theorem place_join_append (hname : Path.IsName name) (p : Path) (rest : List (List Char)) :
    (p.join ⟨name⟩).place ++ rest = p.place ++ name :: rest := by
  rw [Path.place_join hname, List.append_assoc, List.singleton_append]

theorem conforms_join (hname : Path.IsName name) :
    Conforms c (source.join ⟨name⟩) (target.join ⟨name⟩) Set.univ ↔
      Conforms c source target (under [name]) := by
  have hplace := place_join_append hname
  constructor
  · intro h
    refine ⟨fun names hnames e he => ?_, fun names hnames e x he hx => ?_⟩
    · obtain ⟨rest, rfl⟩ := exists_of_mem_under hnames
      exact h.short rest trivial e (by rwa [hplace])
    · obtain ⟨rest, rfl⟩ := exists_of_mem_under hnames
      exact h.alike rest trivial e x (by rwa [hplace]) (by rwa [hplace])
  · intro h
    refine ⟨fun rest _ e he => ?_, fun rest _ e x he hx => ?_⟩
    · rw [hplace] at he
      exact h.short _ (cons_mem_under name rest) e he
    · rw [hplace] at he hx
      exact h.alike _ (cons_mem_under name rest) e x he hx

/-- The copy of an entry is a part of the copy of its folder. -/
theorem Copying.of_join {result : EStateM.Result FolderError Disk Unit} (hname : Path.IsName name)
    (h : Copying c (source.join ⟨name⟩) (target.join ⟨name⟩) Set.univ result) :
    Copying c source target (under [name]) result := by
  have hplace := place_join_append hname
  cases h with
  | done conforms overlaid =>
    refine .done ((conforms_join hname).mp conforms)
      ⟨overlaid.isDirectory, fun names hnames => ?_, fun l hl => ?_⟩
    · obtain ⟨rest, rfl⟩ := exists_of_mem_under hnames
      rw [← hplace, ← hplace]
      exact overlaid.inside rest trivial
    · refine overlaid.outside l fun rest _ => ?_
      rw [hplace]
      exact hl _ (cons_mem_under name rest)
  | refused offends => exact .refused fun h => offends ((conforms_join hname).mpr h)

/-- A folder is made, and then what it holds is copied. -/
theorem copyEntry_folder {level : Nat} (h : c.entryAt? loc = some .folder) :
    copyEntry root (level + 1) source loc target c =
      ((createFolder target >>= fun _ => checkListable root source) >>= fun _ =>
        (c.list loc).forM fun x =>
          copyEntry root level (source.join ⟨x.1⟩) (loc ++ [x.1]) (target.join ⟨x.1⟩)) c := by
  rw [copyEntry, get_bind_run, h, bind_assoc]

/-- Within so many levels every entry of a folder is copied, if that can be done. -/
def CopiesWithin (root : Path) (level : Nat) : Prop :=
  ∀ {c : Disk} {source target : Path} {name : List Char} {e : Entry}, c.IsDirectory →
    c.isFolder source = true → c.isFolder target = true → Apart source.place target.place →
    c.entryAt? (source.place ++ [name]) = some e →
    maxPathBytes < byteLength (target.join ⟨name⟩).chars + level →
    Copying c (source.join ⟨name⟩) (target.join ⟨name⟩) Set.univ
      (copyEntry root level (source.join ⟨name⟩) (source.place ++ [name]) (target.join ⟨name⟩) c)

theorem CopiesWithin.each {level : Nat} (h : CopiesWithin root level) (hc : c.IsDirectory)
    (hsource : c.isFolder source = true) (htarget : c.isFolder target = true)
    (hapart : Apart source.place target.place)
    (hroom : maxPathBytes < byteLength target.chars + (level + 1))
    {items : List (List Char × Entry)}
    (hitems : ∀ x ∈ items, c.entryAt? (source.place ++ [x.1]) = some x.2)
    (hnodup : (items.map Prod.fst).Nodup) :
    Copying c source target (under (items.map Prod.fst))
      (items.forM (fun x => copyEntry root level (source.join ⟨x.1⟩) (source.place ++ [x.1])
        (target.join ⟨x.1⟩)) c) := by
  induction items generalizing c with
  | nil =>
    have hnone : under (([] : List (List Char × Entry)).map Prod.fst) = ∅ := by
      simp [under]
    rw [hnone]
    exact .done ⟨fun _ hin => hin.elim, fun _ hin => hin.elim⟩ (.refl hc source target)
  | cons x items ih =>
    obtain ⟨name, e⟩ := x
    rw [List.map_cons, List.nodup_cons] at hnodup
    rw [List.map_cons, under_cons]
    have he := hitems (name, e) (by simp)
    have hname := (hc.spot he).isName
    have hlonger := byteLength_join (p := target) hname
    refine Copying.bind hapart (fun _ => not_mem_under hnodup.1)
      ((h hc hsource htarget hapart he (by omega)).of_join hname) fun c' conforms overlaid => ?_
    have hgrown := overlaid.grown conforms
    refine ih overlaid.isDirectory (hgrown.isFolder hsource) (hgrown.isFolder htarget) ?_ hnodup.2
    intro y hy
    rw [overlaid.source_eq hapart]
    exact hitems y (by simp [hy])

/-- Every level makes the path of the target longer, so there are levels enough. -/
theorem copiesWithin (root : Path) (level : Nat) : CopiesWithin root level := by
  induction level with
  | zero =>
    intro c source target name e hc _ _ _ he hroom
    have hname := (hc.spot he).isName
    refine .refused fun h => ?_
    have hshort := (h.short [] trivial e
      (by rwa [List.append_nil, Path.place_join hname])).2
    have hlong : maxPathBytes < byteLength (target.join ⟨name⟩).chars := hroom
    exact absurd hshort (Nat.not_le.mpr hlong)
  | succ level ih =>
    intro c source target name e hc hsource htarget hapart he hroom
    have hname := (hc.spot he).isName
    have hsplace := Path.place_join hname source
    cases e with
    | file bytes =>
      rw [copyEntry, get_bind_run, he]
      refine (copyFile_copying hc hsource htarget hapart he).widen fun names hnames => ?_
      rw [hsplace]
      exact hc.entryAt?_below_file he hnames
    | folder =>
      have hapart' : Apart (source.join ⟨name⟩).place (target.join ⟨name⟩).place := by
        rw [hsplace, Path.place_join hname target]
        exact hapart.append _ _
      rw [copyEntry_folder he, ← hsplace]
      refine (Copying.bind hapart' (fun _ => ne_nil_of_mem_under)
        (createFolder_copying hc htarget root he) fun c' conforms overlaid => ?_).widen
          fun names hnames => hc.entryAt?_of_not_listed hnames
      obtain ⟨hsource', htarget'⟩ :=
        isFolder_of_overlaid hc hsource htarget hapart' he conforms overlaid
      refine ih.each overlaid.isDirectory hsource' htarget' hapart' hroom ?_ (hc.nodup_list _)
      rintro ⟨inner, x⟩ hin
      rw [overlaid.source_eq hapart']
      exact hc.mem_list.mp hin

end ModuleCompiler.Disk
