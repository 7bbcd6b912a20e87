import ModuleCompiler.Proofs.Containment
import ModuleCompiler.Proofs.Overlay
import ModuleCompiler.Proofs.Rebuild

/-!
Copies of folders. The folder at the root of a copy is made with all that it lacks, so whether a
copy succeeds also depends on the way to its target: no file may stand there, the path has to be one
that a file system takes, and a folder that is asked for by a dot has to be there already.
-/

namespace ModuleCompiler.Disk

variable {d c : Disk} {p source target : Path} {a b : Location}

/-- The target of a copy as it is asked for, with a slash at its end. -/
theorem chars_join_empty (p : Path) :
    (p.join Path.empty).chars = p.chars ∨ (p.join Path.empty).chars = p.chars ++ ['/'] := by
  unfold Path.join
  split
  case h_1 heq => cases heq
  case h_2 hlast _ => exact Or.inl (List.getLast?_eq_none_iff.mp hlast).symm
  case h_3 => exact Or.inl (List.append_nil _)
  case h_4 => exact Or.inr rfl

theorem trimSlashes_join_empty (p : Path) :
    trimSlashes (Path.pieces (p.join Path.empty).chars) = trimSlashes (Path.pieces p.chars) := by
  rcases chars_join_empty p with h | h
  · rw [h]
  · rw [h, Path.pieces_append_slash]
    simp [Path.pieces, trimSlashes]

theorem steps_join_empty (p : Path) : (p.join Path.empty).steps = p.steps := by
  rw [Path.steps_join (by decide)]
  exact List.append_nil _

theorem place_join_empty (p : Path) : (p.join Path.empty).place = p.place := by
  rw [Path.place_eq, steps_join_empty, ← Path.place_eq]

theorem straight_join_empty (h : p.Straight) : (p.join Path.empty).Straight := by
  rwa [Path.Straight, steps_join_empty]

theorem chars_ne_nil_of_place (h : p.place ≠ []) : p.chars ≠ [] := by
  intro hnil
  refine h ?_
  rw [Path.place, hnil]
  rfl

/-- A folder can be made exactly if the path can be taken and no file stands in its way; but one
that is asked for by a dot has to be there. -/
theorem makeFolders_iff (hd : d.IsDirectory) (hp : p.Straight) (hne : p.place ≠ []) :
    (∃ d', makeFolders p d = .ok () d') ↔ Usable p ∧ Passable d p ∧
      ((trimSlashes (Path.pieces p.chars)).getLast? = some ['.'] →
        d.entryAt? p.place = some .folder) := by
  have hchars := chars_ne_nil_of_place hne
  constructor
  · rintro ⟨d', hmade⟩
    obtain ⟨husable, hpaved⟩ := makeFolders_paved hmade hchars
    have hpass : Passable d p := by
      intro l hl
      have hgrown := makeFolders_furnished p d l
      rw [hmade] at hgrown
      rcases hgrown with hsame | ⟨hnone, -⟩
      · exact Or.inr (hsame ▸ hpaved l hl)
      · exact Or.inl hnone
    refine ⟨husable, hpass, fun hdot => ?_⟩
    refine (hpass _ (Path.onWay_place p)).resolve_left fun hnone => ?_
    exact makeFolders_last hd hp hne hnone hmade hdot
  · rintro ⟨husable, hpass, hdot⟩
    by_cases hlast : (trimSlashes (Path.pieces p.chars)).getLast? = some ['.']
    · have hpaved := hd.paved hp (hdot hlast)
      exact ⟨d, makeFolders_there (isFolder_iff.mpr (hpaved.resolve husable hchars))⟩
    · obtain ⟨d', hmade, -⟩ := makeFolders_run hpass husable (Or.inr hlast)
      exact ⟨d', hmade⟩

/-- No file stands at the end of a path or on the way to it. -/
theorem passable_iff (hp : p.Straight) :
    Passable d p ↔ ∀ l, l <+: p.place → ∀ bytes, d.entryAt? l ≠ some (.file bytes) := by
  unfold Passable
  refine forall_congr' fun l => ?_
  rw [hp.onWay_iff]
  refine imp_congr_right fun _ => ?_
  cases d.entryAt? l with
  | none => simp
  | some e => cases e <;> simp

theorem createFolder_eq_ok : createFolder p d = .ok () c ↔ makeFolders p d = .ok () c := by
  unfold createFolder Action.within
  cases makeFolders p d with
  | ok u made => simp
  | error e made => simp

/-- The paths that a copy needs are such as a file system takes: none is too long, and a target that
is asked for by a dot is there. -/
structure Spellable (d : Disk) (source target : Path) : Prop where
  usable : Usable (target.join Path.empty)
  ending : (trimSlashes (Path.pieces target.chars)).getLast? = some ['.'] →
    d.entryAt? target.place = some .folder
  short : ∀ names e, d.entryAt? (source.place ++ names) = some e →
    byteLength (descend source names).chars ≤ maxPathBytes ∧
      byteLength (descend (target.join Path.empty) names).chars ≤ maxPathBytes

/-- What it takes to lay the contents of one folder over another. -/
structure Copyable (d : Disk) (source target : Path) : Prop where
  folder : d.isFolder source = true
  free : ∀ l, l <+: target.place → ∀ bytes, d.entryAt? l ≠ some (.file bytes)
  alike : ∀ names e x, d.entryAt? (source.place ++ names) = some e →
    d.entryAt? (target.place ++ names) = some x → (e = .folder ↔ x = .folder)
  spellable : Spellable d source target

/-- There is room for a path, so a folder is copied at least to the first level. -/
theorem exists_maxPathBytes : ∃ level, maxPathBytes = level + 1 := ⟨_, rfl⟩

theorem copyFolder_eq (hfolder : d.isFolder source = true) (target : Path) {level : Nat}
    (hlevel : maxPathBytes = level + 1) :
    copyFolder source target d =
      ((createFolder (target.join Path.empty) >>= fun _ => checkListable source source) >>=
        fun _ => (d.list source.place).forM fun x => copyEntry source level (source.join ⟨x.1⟩)
          (source.place ++ [x.1]) ((target.join Path.empty).join ⟨x.1⟩)) d := by
  have hresolve := isFolder_iff.mp hfolder
  unfold copyFolder
  rw [get_bind_run, hresolve, hlevel]
  exact copyEntry_folder (place_of_resolve hresolve).2.entry

/-- The target is made before anything is copied. -/
theorem makes_of_copyFolder (hfolder : d.isFolder source = true) {u : Unit}
    (h : copyFolder source target d = .ok u c) :
    ∃ c', makeFolders (target.join Path.empty) d = .ok () c' := by
  obtain ⟨level, hlevel⟩ := exists_maxPathBytes
  rw [copyFolder_eq hfolder target hlevel, bind_assoc] at h
  obtain ⟨_, c', hcreate, -⟩ := bind_eq_ok h
  exact ⟨c', createFolder_eq_ok.mp hcreate⟩

theorem Apart.ne_nil (h : Apart a b) : b ≠ [] := by
  rintro rfl
  exact h.2 List.nil_prefix

section Folder

variable (hd : d.IsDirectory) (hp : target.Straight) (hapart : Apart source.place target.place)
include hd hp hapart

/-- Whether the target can be made. -/
theorem makes_target_iff :
    (∃ c, makeFolders (target.join Path.empty) d = .ok () c) ↔
      Usable (target.join Path.empty) ∧
      (∀ l, l <+: target.place → ∀ bytes, d.entryAt? l ≠ some (.file bytes)) ∧
      ((trimSlashes (Path.pieces target.chars)).getLast? = some ['.'] →
        d.entryAt? target.place = some .folder) := by
  have hstraight := straight_join_empty hp
  have hplace := place_join_empty target
  rw [makeFolders_iff hd hstraight (hplace ▸ hapart.ne_nil), passable_iff hstraight,
    trimSlashes_join_empty, hplace]

/-- Making the target changes nothing below it, and nothing of the source. -/
theorem entries_of_makeFolders {u : Unit}
    (hmade : makeFolders (target.join Path.empty) d = .ok u c) :
    (∀ names, c.entryAt? (source.place ++ names) = d.entryAt? (source.place ++ names)) ∧
      ∀ names, names ≠ [] →
        c.entryAt? (target.place ++ names) = d.entryAt? (target.place ++ names) := by
  have hoff := (makeFolders_sameOff hd (target.join Path.empty)).2.off
  rw [hmade] at hoff
  simp only [(straight_join_empty hp).onWay_iff, place_join_empty] at hoff
  refine ⟨fun names => hoff _ fun hway => ?_, fun names hnames => hoff _ fun hway => ?_⟩
  · exact hapart.1 ((List.prefix_append ..).trans hway)
  · have hlength := hway.length_le
    rw [List.length_append] at hlength
    exact hnames (List.eq_nil_of_length_eq_zero (by omega))

section Made

variable (hfolder : d.isFolder source = true)
  (hmade : makeFolders (target.join Path.empty) d = .ok () c)
include hfolder hmade

/-- Once the target is made, the entries of the source are copied one by one. -/
theorem copyFolder_copying : Copying c source (target.join Path.empty) (contents d source.place)
    (copyFolder source target d) := by
  have hresolve := isFolder_iff.mp hfolder
  have hlistable := (checkPath_eq_ok.mp (resolve_eq_ok.mp hresolve).1).2.2
  have hchars := chars_ne_nil_of_place (place_join_empty target ▸ hapart.ne_nil)
  have hcreate := createFolder_eq_ok.mpr hmade
  have hcheck : checkListable source source c = .ok () c := by
    rw [checkListable, if_neg (Nat.not_lt.mpr hlistable)]
    rfl
  obtain ⟨level, hlevel⟩ := exists_maxPathBytes
  rw [copyFolder_eq hfolder target hlevel, bind_assoc, bind_run_ok hcreate, bind_run_ok hcheck]
  have hsame := entries_of_makeFolders hd hp hapart hmade
  obtain ⟨husable, hpaved⟩ := makeFolders_paved hmade hchars
  have hc : c.IsDirectory := by
    have hleft := (makeFolders_sameOff hd (target.join Path.empty)).1
    rwa [hmade] at hleft
  have hgrown := makeFolders_furnished (target.join Path.empty) d
  rw [hmade] at hgrown
  have hroom : maxPathBytes < byteLength (target.join Path.empty).chars + (level + 1) := by
    obtain ⟨x, rest, hx⟩ := List.exists_cons_of_ne_nil hchars
    have hpos := Char.utf8Size_pos x
    rw [hx, byteLength]
    omega
  refine CopiesWithin.each (copiesWithin source level) hc (hgrown.grown.isFolder hfolder)
    (isFolder_iff.mpr (hpaved.resolve husable hchars)) (by rwa [place_join_empty]) hroom ?_
    (hd.nodup_list _)
  rintro ⟨name, e⟩ hin
  rw [hsame.1]
  exact hd.mem_list.mp hin

/-- The entries can be copied to the target if all can be laid over it, and only then. -/
theorem conforms_iff_copyable :
    Conforms c source (target.join Path.empty) (contents d source.place) ↔
      Copyable d source target := by
  have hresolve := isFolder_iff.mp hfolder
  have hentry := (place_of_resolve hresolve).2.entry
  obtain ⟨hsource, htarget⟩ := entries_of_makeFolders hd hp hapart hmade
  have hplace : (target.join Path.empty).place = target.place := place_join_empty target
  obtain ⟨husable, hfree, hending⟩ := (makes_target_iff hd hp hapart).mp ⟨c, hmade⟩
  constructor
  · intro h
    -- What lies below the source is copied by name, and only its root has none.
    refine ⟨hfolder, hfree, fun names e x he hx => ?_, husable, hending, fun names e he => ?_⟩
    · by_cases hnames : names = []
      · subst hnames
        rw [List.append_nil] at he hx
        obtain rfl := Option.some.inj (hentry.symm.trans he)
        cases x with
        | folder => exact Iff.rfl
        | file bytes => exact absurd hx (hfree _ List.prefix_rfl bytes)
      · refine h.alike names (hd.mem_contents hnames he) e x (by rwa [hsource]) ?_
        rwa [hplace, htarget names hnames]
    · by_cases hnames : names = []
      · subst hnames
        exact ⟨(checkPath_eq_ok.mp (resolve_eq_ok.mp hresolve).1).2.2, husable.length⟩
      · exact h.short names (hd.mem_contents hnames he) e (by rwa [hsource])
  · intro h
    refine ⟨fun names hnames e he => ?_, fun names hnames e x he hx => ?_⟩
    · exact h.spellable.short names e (by rwa [← hsource])
    · rw [hsource] at he
      rw [hplace, htarget names (ne_nil_of_mem_under hnames)] at hx
      exact h.alike names e x he hx

end Made

theorem copyFolder_succeeds_iff :
    (∃ d', copyFolder source target d = .ok () d') ↔ Copyable d source target := by
  constructor
  · rintro ⟨d', hrun⟩
    have hfolder : d.isFolder source = true := by
      by_contra hmissing
      rw [copyFolder_missing (by simpa using hmissing)] at hrun
      cases hrun
    obtain ⟨c, hmade⟩ := makes_of_copyFolder hfolder hrun
    have hcopy := copyFolder_copying hd hp hapart hfolder hmade
    rw [hrun] at hcopy
    cases hcopy with
    | done conforms overlaid =>
      exact (conforms_iff_copyable hd hp hapart hfolder hmade).mp conforms
  · intro h
    obtain ⟨c, hmade⟩ := (makes_target_iff hd hp hapart).mpr
      ⟨h.spellable.usable, h.free, h.spellable.ending⟩
    have hcopy := copyFolder_copying hd hp hapart h.folder hmade
    cases hrun : copyFolder source target d with
    | ok u d' => exact ⟨d', rfl⟩
    | error e d' =>
      rw [hrun] at hcopy
      cases hcopy with
      | refused offends =>
        exact absurd ((conforms_iff_copyable hd hp hapart h.folder hmade).mpr h) offends

/-- The target comes to hold what the source holds, and keeps what only it had. -/
theorem copyFolder_overlay {d' : Disk} (hrun : copyFolder source target d = .ok () d')
    (names : List (List Char)) : d'.entryAt? (target.place ++ names) =
      (d.entryAt? (source.place ++ names)).or (d.entryAt? (target.place ++ names)) := by
  have hcopyable := (copyFolder_succeeds_iff hd hp hapart).mp ⟨d', hrun⟩
  have hfolder := hcopyable.folder
  obtain ⟨c, hmade⟩ := makes_of_copyFolder hfolder hrun
  have hplace := place_join_empty target
  obtain ⟨hsource, htarget⟩ := entries_of_makeFolders hd hp hapart hmade
  have hcopy := copyFolder_copying hd hp hapart hfolder hmade
  rw [hrun] at hcopy
  cases hcopy with
  | done conforms overlaid =>
    by_cases hnames : names = []
    · subst hnames
      have hchars := chars_ne_nil_of_place (hplace ▸ hapart.ne_nil)
      have hthere := (makeFolders_paved hmade hchars).2 _ (Path.onWay_place _)
      have hsame := overlaid.target_eq fun hin => ne_nil_of_mem_under hin rfl
      rw [List.append_nil, hthere, hplace] at hsame
      rw [List.append_nil, List.append_nil, hsame,
        (place_of_resolve (isFolder_iff.mp hfolder)).2.entry]
      rfl
    · rw [← htarget names hnames, ← hsource names, ← hplace]
      by_cases hin : names ∈ contents d source.place
      · exact overlaid.inside names hin
      · rw [overlaid.target_eq hin, hsource,
          hd.entryAt?_of_not_listed fun h => h.elim hnames hin]
        rfl

end Folder

/-- Whether it succeeds or fails, a copy changes nothing but what is below the target, and makes the
folders that are missing on the way to it. -/
theorem copyFolder_writesBelow (hd : d.IsDirectory) (hapart : Apart source.place target.place)
    (hfolder : d.isFolder source = true) :
    WritesBelow target d (left (copyFolder source target d)) := by
  have hentry := (place_of_resolve (isFolder_iff.mp hfolder)).2.entry
  have hempty : Path.empty.Stays := by decide
  refine (((lasting_writesBelow target d).copyFolder (fun names hnames => ?_) ?_).left
    ⟨hd, fun _ => Or.inl rfl⟩).2
  · exact (((Inside.refl target).join hempty).descend hnames).way
  · rintro c names bytes ⟨-, hwrites⟩ - hfile
    refine below_append List.prefix_rfl ?_
    -- The root of the source stays a folder, so what is read as a file is below it.
    rintro rfl
    rw [List.append_nil] at hfile
    rcases hwrites source.place with hsame | hbelow | ⟨-, hnone, -⟩
    · rw [hsame, hentry] at hfile
      cases hfile
    · exact hapart.2 hbelow.1
    · rw [hentry] at hnone
      cases hnone

/-- A folder is laid over another exactly if it is a folder, no file stands at the target or on the
way to it, no folder meets a file, and all paths can be taken. Then the target holds what the source
holds and what only it had. In any case the source stays as it is, and so does all that is not at or
below the target but for folders that were missing on the way to it. -/
theorem copyFolder_lays_over (hd : d.IsDirectory) (hp : target.Straight)
    (hapart : Apart source.place target.place) :
    ((∃ d', copyFolder source target d = .ok () d') ↔ Copyable d source target) ∧
    (∀ d', copyFolder source target d = .ok () d' → ∀ names,
      d'.entryAt? (target.place ++ names) =
        (d.entryAt? (source.place ++ names)).or (d.entryAt? (target.place ++ names))) ∧
    (∀ l, ¬ target.place <+: l →
      (left (copyFolder source target d)).entryAt? l = d.entryAt? l ∨
        (l <+: target.place ∧ d.entryAt? l = none ∧
          (left (copyFolder source target d)).entryAt? l = some .folder)) ∧
    (∀ names, (left (copyFolder source target d)).entryAt? (source.place ++ names) =
      d.entryAt? (source.place ++ names)) ∧
    (d.isFolder source = false →
      copyFolder source target d = .error (.missing source) d) := by
  have hwrites : WritesBelow target d (left (copyFolder source target d)) := by
    cases hfolder : d.isFolder source with
    | true => exact copyFolder_writesBelow hd hapart hfolder
    | false =>
      rw [copyFolder_missing hfolder]
      exact fun _ => Or.inl rfl
  refine ⟨copyFolder_succeeds_iff hd hp hapart, fun d' => copyFolder_overlay hd hp hapart,
    fun l hl => ?_, fun names => ?_, fun hmissing => copyFolder_missing hmissing target⟩
  · rcases hwrites l with hsame | hbelow | ⟨hway, hmade⟩
    · exact Or.inl hsame
    · exact absurd hbelow.1 hl
    · exact Or.inr ⟨hp.onWay_iff.mp hway, hmade⟩
  · rcases hwrites (source.place ++ names) with hsame | hbelow | ⟨hway, -⟩
    · exact hsame
    · refine absurd ?_ (hapart.append names []).2
      rw [List.append_nil]
      exact hbelow.1
    · exact absurd ((List.prefix_append ..).trans (hp.onWay_iff.mp hway)) hapart.1

/-- Two folders that have a folder and a file in common. -/
def layers : Disk where
  entries := [
    (["From".toList], .folder),
    (["From".toList, "a".toList], .folder),
    (["From".toList, "a".toList, "x".toList], .file "new".toUTF8),
    (["From".toList, "b".toList], .folder),
    (["Out".toList], .folder),
    (["Out".toList, "a".toList], .folder),
    (["Out".toList, "a".toList, "x".toList], .file "old".toUTF8),
    (["Out".toList, "a".toList, "y".toList], .file "kept".toUTF8)]

/-- A folder asked for by a dot is filled if it is there. -/
theorem copyFolder_lays_over_layers :
    layers.IsDirectory ∧ (Path.ofString "Out//.").Straight ∧
      Apart (Path.ofString "From/").place (Path.ofString "Out//.").place ∧
      Copyable layers (.ofString "From/") (.ofString "Out//.") ∧
      ∃ d', copyFolder (.ofString "From/") (.ofString "Out//.") layers = .ok () d' ∧
        d'.entryAt? ["Out".toList, "a".toList, "x".toList] = some (.file "new".toUTF8) ∧
        d'.entryAt? ["Out".toList, "a".toList, "y".toList] = some (.file "kept".toUTF8) ∧
        d'.entryAt? ["Out".toList, "b".toList] = some .folder := by
  have hd : layers.IsDirectory :=
    ⟨by decide +kernel, by decide +kernel, by decide +kernel, by decide +kernel⟩
  have hp : (Path.ofString "Out//.").Straight := by decide
  have hapart : Apart (Path.ofString "From/").place (Path.ofString "Out//.").place := by decide
  obtain ⟨hiff, hoverlay, -⟩ := copyFolder_lays_over hd hp hapart
  have hcheck : (reply (copyFolder (.ofString "From/") (.ofString "Out//.") layers)).isOk = true :=
    by decide +kernel
  cases hrun : copyFolder (.ofString "From/") (.ofString "Out//.") layers with
  | error e d' =>
    rw [hrun] at hcheck
    cases hcheck
  | ok u d' =>
    have hview := hoverlay d' hrun
    refine ⟨hd, hp, hapart, hiff.mp ⟨d', hrun⟩, d', rfl, ?_, ?_, ?_⟩
    · exact (hview ["a".toList, "x".toList]).trans (by decide +kernel)
    · exact (hview ["a".toList, "y".toList]).trans (by decide +kernel)
    · exact (hview ["b".toList]).trans (by decide +kernel)

/-- A folder with a file. -/
def satchel : Disk where
  entries := [
    (["From".toList], .folder),
    (["From".toList, "f".toList], .file "x".toUTF8)]

/-- Nothing is in the way of a copy, and still it fails: a folder that is not there is not made if
it is asked for by a dot. -/
theorem dotted_target_not_made :
    satchel.IsDirectory ∧ (Path.ofString "Out/.").Straight ∧
      Apart (Path.ofString "From").place (Path.ofString "Out/.").place ∧
      satchel.isFolder (.ofString "From") = true ∧
      (∀ names, satchel.entryAt? ((Path.ofString "Out/.").place ++ names) = none) ∧
      reply (copyFolder (.ofString "From") (.ofString "Out/.") satchel) =
        .error (.create (.ofString "Out/./") .notFound) := by
  have hd : satchel.IsDirectory :=
    ⟨by decide +kernel, by decide +kernel, by decide +kernel, by decide +kernel⟩
  refine ⟨hd, by decide, by decide, by decide +kernel, fun names => ?_, by decide +kernel⟩
  by_contra hsome
  obtain ⟨e, he⟩ := Option.ne_none_iff_exists'.mp hsome
  have hne : (Path.ofString "Out/.").place ++ names ≠ [] :=
    List.append_ne_nil_of_left_ne_nil (by decide) _
  obtain ⟨x, hx⟩ := (hd.reached (mem_of_entryAt? hne he) hne).exists_above
    (List.prefix_append ..)
  have hnone : satchel.entryAt? (Path.ofString "Out/.").place = none := by decide +kernel
  rw [hnone] at hx
  cases hx

end ModuleCompiler.Disk
