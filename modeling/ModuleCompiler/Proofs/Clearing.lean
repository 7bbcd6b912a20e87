import ModuleCompiler.Proofs.Edits

/-!
Emptying folders. A folder that is recreated is a folder with nothing in it, its way consists of
folders, and all else is as before. Whether this goes well depends on the path and on its way only,
not on what the folder held.
-/

namespace ModuleCompiler.Disk

variable {d d' : Disk} {p q : Path} {loc : Location} {e : Entry}

theorem lookup_filter (keep : Location → Bool) (entries : List (Location × Entry)) :
    lookup loc (entries.filter fun x => keep x.1) =
      if keep loc then lookup loc entries else none := by
  induction entries with
  | nil => simp [lookup]
  | cons x entries ih =>
    obtain ⟨l, y⟩ := x
    by_cases hl : l = loc
    · subst hl
      by_cases hkeep : keep l
      · simp [hkeep, lookup]
      · simpa [hkeep] using ih
    · by_cases hkeep : keep l
      · simp [hkeep, lookup, hl, ih]
      · simp [hkeep, lookup, hl, ih]

theorem entryAt?_erase (hloc : loc ≠ []) (l : Location) :
    (d.erase loc).entryAt? l = if loc <+: l then none else d.entryAt? l := by
  by_cases hl : l = []
  · subst hl
    have hout : ¬ loc <+: [] := fun h => hloc (List.prefix_nil.mp h)
    rw [if_neg hout]
    rfl
  · rw [entryAt?_of_ne hl, entryAt?_of_ne hl]
    show lookup l (d.entries.filter fun x => !loc.isPrefixOf x.1) = _
    rw [lookup_filter fun l => !loc.isPrefixOf l]
    by_cases hbelow : loc <+: l
    · simp [hbelow]
    · simp [hbelow]

theorem mem_erase {x : Location × Entry} :
    x ∈ (d.erase loc).entries ↔ x ∈ d.entries ∧ ¬ loc <+: x.1 := by
  obtain ⟨l, e⟩ := x
  simp only [erase, List.mem_filter, Bool.not_eq_true', ← List.isPrefixOf_iff_prefix,
    Bool.not_eq_true]

theorem IsDirectory.erase (hd : d.IsDirectory) (hloc : loc ≠ []) : (d.erase loc).IsDirectory := by
  refine ⟨hd.sorted.filter _, fun x hx => hd.named x (mem_erase.mp hx).1, fun x hx => ?_,
    fun x hx => hd.storable x (mem_erase.mp hx).1⟩
  obtain ⟨hx, hout⟩ := mem_erase.mp hx
  rw [entryAt?_erase hloc, if_neg fun h => hout (h.trans (List.dropLast_prefix _))]
  exact hd.within x hx

/-- Nothing lies below a place at which there is nothing. -/
theorem IsDirectory.erase_of_none (hd : d.IsDirectory) (h : d.entryAt? loc = none) :
    d.erase loc = d := by
  obtain ⟨entries⟩ := d
  refine congrArg Disk.mk (List.filter_eq_self.mpr fun x hx => ?_)
  obtain ⟨l, y⟩ := x
  simp only [Bool.not_eq_true', ← Bool.not_eq_true, List.isPrefixOf_iff_prefix]
  intro hbelow
  have hne : l ≠ [] := by
    rintro rfl
    rw [List.prefix_nil.mp hbelow] at h
    cases h
  obtain ⟨y, hy⟩ := (hd.reached hx hne).exists_above hbelow
  rw [h] at hy
  cases hy

/-- A path that ends in a name, not in a dot or in a step up. -/
def EndsInName (p : Path) : Prop :=
  ∃ name, (trimSlashes (Path.pieces p.chars)).getLast? = some name ∧ Path.IsName name

theorem EndsInName.last (h : EndsInName p) :
    (trimSlashes (Path.pieces p.chars)).getLast? ≠ some ['.'] := by
  obtain ⟨name, hlast, hname⟩ := h
  rw [hlast]
  intro heq
  exact hname.2.1 (Option.some.inj heq)

theorem removeFolder_run (h : d.resolve p = .ok (.present loc .folder)) (hend : EndsInName p) :
    removeFolder p d = .ok () (d.erase loc) := by
  obtain ⟨name, hlast, hname⟩ := hend
  have hdrop : dropEmptied p loc = modify (·.erase loc) := by
    simp only [dropEmptied, hlast]
    split
    · rename_i heq
      exact absurd (Option.some.inj heq) hname.2.1
    · rename_i heq
      exact absurd (Option.some.inj heq) hname.2.2.1
    · rfl
  unfold removeFolder
  rw [get_bind_run, h]
  show dropEmptied p loc _ = _
  rw [hdrop]
  refine congrArg (fun entries => EStateM.Result.ok () (Disk.mk entries)) ?_
  rw [List.filter_filter]
  refine List.filter_congr ?_
  rintro ⟨l, y⟩ -
  cases hbelow : loc.isPrefixOf l <;> simp [hbelow]

/-- Deleting is erasing, whether or not the folder is there. -/
theorem deleteFolder_run (hd : d.IsDirectory) (hpass : Passable d p) (h : Usable p)
    (hend : EndsInName p) (hfolder : d.entryAt? p.place = some .folder → Paved d p) :
    deleteFolder p d = .ok () (d.erase p.place) := by
  have hne : p.chars ≠ [] := by
    intro hnil
    obtain ⟨name, hlast, -⟩ := hend
    rw [hnil] at hlast
    cases hlast
  rcases hpass _ (Path.onWay_place p) with hnone | hthere
  · have hmissing : removeFolder p d = .error .notFound d := by
      have hcheck := h.checkPath hne
      unfold removeFolder
      rw [get_bind_run]
      cases hpass.trail h (Or.inl rfl) with
      | whole run folders =>
        have := folders _ List.prefix_rfl
        rw [Path.placeFrom_stepsOf] at this
        cases hnone.symm.trans this
      | @broken a rest name split named down folders missing run =>
        by_cases hrest : rest.all (· = []) = true
        · rw [if_pos hrest] at run
          rw [resolve_eq_ok.mpr ⟨hcheck, run⟩]
          rfl
        · rw [if_neg hrest] at run
          have hresolve : d.resolve p = .error .notFound := by
            rw [resolve, hcheck]
            exact run
          rw [hresolve]
          rfl
    unfold deleteFolder
    rw [hmissing, hd.erase_of_none hnone]
  · have hresolve := (hfolder hthere).resolve h hne
    unfold deleteFolder
    rw [removeFolder_run hresolve hend]

/-- Where there is no folder nothing is deleted. -/
theorem left_deleteFolder (h : d.resolve p ≠ .ok (.present p.place .folder)) :
    left (deleteFolder p d) = d := by
  unfold deleteFolder removeFolder
  rw [get_bind_run]
  cases hresolve : d.resolve p with
  | error e => cases e <;> rfl
  | ok target =>
    cases target with
    | absent folder name => rfl
    | present loc e =>
      obtain ⟨rfl, -⟩ := place_of_resolve hresolve
      cases e with
      | file bytes => rfl
      | folder => exact absurd hresolve h

/-- The way along a path is all that two directories differ in. -/
structure SameOff (p : Path) (d d' : Disk) : Prop where
  off : ∀ l, ¬ p.OnWay l → d'.entryAt? l = d.entryAt? l
  top : ∀ e, ([], e) ∈ d'.entries ↔ ([], e) ∈ d.entries

theorem mem_place_of_ne {x : Location × Entry} {entries : List (Location × Entry)}
    (h : x.1 ≠ loc) : x ∈ place loc e entries ↔ x ∈ entries := by
  have hne : x ≠ (loc, e) := fun heq => h (heq ▸ rfl)
  induction entries with
  | nil => simp [place, hne]
  | cons y entries ih =>
    obtain ⟨l, z⟩ := y
    unfold place
    split
    · rename_i hl
      have hne' : x ≠ (l, z) := fun heq => h (by rw [heq, hl])
      simp [hne, hne']
    · split
      · simp [hne]
      · simp [ih]

theorem lasting_sameOff (p : Path) (d : Disk) :
    Lasting (fun c => c.IsDirectory ∧ SameOff p d c) (fun q => ∀ l, q.OnWay l → p.OnWay l)
      fun _ => False where
  isDirectory c hc := hc.1
  parent q r hq hparent l hl := hq l ((Path.onWay_iff_of_parent hparent).mpr (Or.inl hl))
  folder c q loc name hc hq _ hplace hspot hnone := by
    have hne : loc ++ [name] ≠ [] := by simp
    refine ⟨hc.1.put hspot (Or.inl rfl), fun l hl => ?_, fun e => ?_⟩
    · rw [entryAt?_put hne, if_neg, hc.2.off l hl]
      rintro rfl
      exact hl (hq _ (hplace ▸ Path.onWay_place q))
    · rw [← hc.2.top]
      exact mem_place_of_ne (Ne.symm hne)
  file c loc name bytes hc hfalse := hfalse.elim

theorem makeFolders_sameOff (hd : d.IsDirectory) (p : Path) :
    (left (makeFolders p d)).IsDirectory ∧ SameOff p d (left (makeFolders p d)) :=
  ((lasting_sameOff p d).makeFolders fun _ hl => hl).left ⟨hd, fun _ _ => rfl, fun _ => Iff.rfl⟩

/-- An emptied folder: its way consists of folders, and elsewhere nothing is changed but what lay at
or below it. -/
structure Emptied (p : Path) (d d' : Disk) : Prop where
  isDirectory : d'.IsDirectory
  paved : Paved d' p
  off : SameOff p (d.erase p.place) d'

theorem recreateFolder_run (hd : d.IsDirectory) (hpass : Passable d p) (h : Usable p)
    (hend : EndsInName p) (hne : p.place ≠ [])
    (hfolder : d.entryAt? p.place = some .folder → Paved d p) :
    ∃ d', recreateFolder p d = .ok () d' ∧ Emptied p d d' := by
  have hpass' : Passable (d.erase p.place) p := by
    intro l hl
    rw [entryAt?_erase hne]
    split
    · exact Or.inl rfl
    · exact hpass l hl
  obtain ⟨d', hmade, hpaved⟩ := makeFolders_run hpass' h (Or.inr hend.last)
  have hsame := makeFolders_sameOff (hd.erase hne) p
  rw [hmade] at hsame
  refine ⟨d', ?_, hsame.1, hpaved, hsame.2⟩
  unfold recreateFolder
  rw [bind_run_ok (deleteFolder_run hd hpass h hend hfolder)]
  simp only [createFolder, Action.within, hmade]

end ModuleCompiler.Disk
