import ModuleCompiler.Disk.Folder
import ModuleCompiler.Proofs.Outcome
import ModuleCompiler.Proofs.Path

/-!
What changes of files do to a disk. A disk is seen through the entry at each location, and a path
through the place that its pieces lead to. Making folders only fills places that were empty; saving
a file changes its own place and makes folders besides; and a path that leads to a file goes on
leading there, whatever is saved later.
-/

namespace ModuleCompiler

namespace Path

/-- Where pieces lead from a location when nothing on the way is missing. -/
def placeFrom : Location → List (List Char) → Location
  | loc, [] => loc
  | loc, piece :: rest =>
    if isVoid piece then placeFrom loc rest
    else if piece = ['.', '.'] then placeFrom loc.dropLast rest
    else placeFrom (loc ++ [piece]) rest

/-- Where a path leads when nothing on the way is missing. -/
def place (p : Path) : Location := placeFrom [] (pieces p.chars)

theorem placeFrom_append (loc : Location) (a b : List (List Char)) :
    placeFrom loc (a ++ b) = placeFrom (placeFrom loc a) b := by
  induction a generalizing loc with
  | nil => rfl
  | cons piece a ih =>
    simp only [List.cons_append, placeFrom]
    split
    · exact ih loc
    · split <;> exact ih _

theorem placeFrom_of_void {ps : List (List Char)} (h : ∀ p ∈ ps, isVoid p = true)
    (loc : Location) : placeFrom loc ps = loc := by
  induction ps with
  | nil => rfl
  | cons piece ps ih =>
    rw [placeFrom, if_pos (h piece (by simp))]
    exact ih fun p hp => h p (by simp [hp])

theorem IsName.placeFrom {name : List Char} (h : IsName name) (loc : Location) :
    placeFrom loc [name] = loc ++ [name] := by
  rw [Path.placeFrom, h.isVoid, if_neg (by decide), if_neg h.2.2.1, Path.placeFrom]

/-- A name appended to a path leads one step further, however the path is spelled. -/
theorem place_join {name : List Char} (h : IsName name) (p : Path) :
    (p.join ⟨name⟩).place = p.place ++ [name] := by
  obtain ⟨cs⟩ := p
  rw [join_name h.2.2.2]
  have hname := pieces_of_no_slash h.2.2.2
  split
  · rename_i hempty
    obtain rfl : cs = [] := hempty
    rw [place, hname]
    exact h.placeFrom []
  · split
    · rename_i hlast
      obtain ⟨a, rfl⟩ := List.getLast?_eq_some_iff.mp hlast
      simp only [place, List.append_assoc, List.singleton_append, pieces_append_slash, hname,
        placeFrom_append, h.placeFrom]
      rfl
    · simp only [place, pieces_append_slash, hname, placeFrom_append, h.placeFrom]

theorem place_child {text : String} (h : IsName text.toList) (p : Path) :
    (p.child text).place = p.place ++ [text.toList] := place_join h p

end Path

namespace Disk

variable {d d' d'' : Disk} {loc : Location}

theorem lookup_place (loc other : Location) (e : Entry) (entries : List (Location × Entry)) :
    lookup other (place loc e entries) = if other = loc then some e else lookup other entries := by
  induction entries with
  | nil => simp [place, lookup, eq_comm]
  | cons x rest ih =>
    obtain ⟨l, y⟩ := x
    unfold place
    split
    · rename_i hloc
      subst hloc
      by_cases hother : loc = other
      · simp [lookup, hother]
      · simp [lookup, hother, Ne.symm hother]
    · rename_i hloc
      split
      · by_cases hother : loc = other
        · simp [lookup, hother]
        · simp [lookup, hother, Ne.symm hother]
      · simp only [lookup, ih]
        by_cases hother : l = other
        · simp [hother, show other ≠ loc from fun heq => hloc (by rw [← heq, hother])]
        · simp [hother]

theorem entryAt?_put (hloc : loc ≠ []) (e : Entry) (other : Location) :
    (d.put loc e).entryAt? other = if other = loc then some e else d.entryAt? other := by
  unfold entryAt? put
  by_cases hother : other = []
  · simp [hother, Ne.symm hloc]
  · simp [hother, lookup_place]

/-- A disk in which files may have changed and more may be there, but nothing is gone. -/
structure Extends (d d' : Disk) : Prop where
  folder : ∀ l, d.entryAt? l = some .folder → d'.entryAt? l = some .folder
  file : ∀ l bytes, d.entryAt? l = some (.file bytes) →
    ∃ bytes', d'.entryAt? l = some (.file bytes')

/-- A disk with more folders. -/
def Furnished (d d' : Disk) : Prop :=
  ∀ l, d'.entryAt? l = d.entryAt? l ∨ (d.entryAt? l = none ∧ d'.entryAt? l = some .folder)

theorem Furnished.refl (d : Disk) : Furnished d d := fun _ => Or.inl rfl

theorem Furnished.trans (h : Furnished d d') (h' : Furnished d' d'') : Furnished d d'' := by
  intro l
  rcases h l with hl | ⟨hnone, hl⟩
  · rw [← hl]
    exact h' l
  · rcases h' l with hl' | ⟨hnone', -⟩
    · exact Or.inr ⟨hnone, hl'.trans hl⟩
    · rw [hl] at hnone'
      cases hnone'

theorem Furnished.of_some (h : Furnished d d') {l : Location} {e : Entry}
    (he : d.entryAt? l = some e) : d'.entryAt? l = some e := by
  rcases h l with hl | ⟨hnone, -⟩
  · exact hl.trans he
  · rw [he] at hnone
    cases hnone

theorem Furnished.grown (h : Furnished d d') : Extends d d' :=
  ⟨fun _ => h.of_some, fun _ bytes hl => ⟨bytes, h.of_some hl⟩⟩

theorem Extends.refl (d : Disk) : Extends d d := (Furnished.refl d).grown

theorem Extends.trans (h : Extends d d') (h' : Extends d' d'') : Extends d d'' := by
  refine ⟨fun l hl => h'.folder l (h.folder l hl), fun l bytes hl => ?_⟩
  obtain ⟨bytes', hl'⟩ := h.file l bytes hl
  exact h'.file l bytes' hl'

theorem furnished_put (hloc : loc ≠ []) (hnone : d.entryAt? loc = none) :
    Furnished d (d.put loc .folder) := by
  intro l
  rw [entryAt?_put hloc]
  split
  · rename_i heq
    exact Or.inr ⟨heq ▸ hnone, rfl⟩
  · exact Or.inl rfl

/-- An entry, and that what leads to it are folders. -/
structure Reached (d : Disk) (loc : Location) (e : Entry) : Prop where
  entry : d.entryAt? loc = some e
  above : ∀ l, l <+: loc → l ≠ loc → d.entryAt? l = some .folder

theorem reached_nil (d : Disk) : Reached d [] .folder :=
  ⟨rfl, fun _ hl hne => absurd (List.prefix_nil.mp hl) hne⟩

theorem Reached.child (h : Reached d loc .folder) {name : List Char} {e : Entry}
    (he : d.entryAt? (loc ++ [name]) = some e) : Reached d (loc ++ [name]) e := by
  refine ⟨he, fun l hl hne => ?_⟩
  rcases List.prefix_concat_iff.mp hl with heq | hl
  · exact absurd heq hne
  · by_cases heq : l = loc
    · rw [heq]
      exact h.entry
    · exact h.above l hl heq

theorem Reached.parent (h : Reached d loc .folder) : Reached d loc.dropLast .folder := by
  have hup : loc.dropLast <+: loc := List.dropLast_prefix loc
  refine ⟨?_, fun l hl hne => ?_⟩
  · by_cases heq : loc.dropLast = loc
    · rw [heq]
      exact h.entry
    · exact h.above _ hup heq
  · by_cases heq : l = loc
    · rw [heq]
      exact h.entry
    · exact h.above l (hl.trans hup) heq

/-- A path that can be followed to its end leads to its place. -/
theorem Reached.follow_present {e x : Entry} {l : Location} {ps : List (List Char)}
    (h : Reached d loc e) (hrun : d.follow loc e ps = .ok (.present l x)) :
    l = Path.placeFrom loc ps ∧ Reached d l x := by
  fun_induction follow d loc e ps with
  | case1 loc e =>
    obtain ⟨rfl, rfl⟩ : loc = l ∧ e = x := by simpa using hrun
    exact ⟨rfl, h⟩
  | case2 => cases hrun
  | case3 loc piece rest hvoid ih =>
    rw [Path.placeFrom, if_pos (by simpa [Path.isVoid] using hvoid)]
    exact ih h hrun
  | case4 loc rest hvoid ih =>
    exact ih h.parent hrun
  | case5 => cases hrun
  | case6 loc piece rest hvoid hup hlong e he ih =>
    rw [Path.placeFrom, if_neg (by simpa [Path.isVoid] using hvoid), if_neg hup]
    exact ih (h.child he) hrun
  | case7 => cases hrun
  | case8 => cases hrun

/-- A path whose last name is missing leads to the place where it would be. -/
theorem Reached.follow_absent {e : Entry} {folder : Location} {name : List Char}
    {ps : List (List Char)} (h : Reached d loc e)
    (hrun : d.follow loc e ps = .ok (.absent folder name)) :
    folder ++ [name] = Path.placeFrom loc ps ∧ d.entryAt? (folder ++ [name]) = none := by
  fun_induction follow d loc e ps with
  | case1 => cases hrun
  | case2 => cases hrun
  | case3 loc piece rest hvoid ih =>
    rw [Path.placeFrom, if_pos (by simpa [Path.isVoid] using hvoid)]
    exact ih h hrun
  | case4 loc rest hvoid ih =>
    exact ih h.parent hrun
  | case5 => cases hrun
  | case6 loc piece rest hvoid hup hlong e he ih =>
    rw [Path.placeFrom, if_neg (by simpa [Path.isVoid] using hvoid), if_neg hup]
    exact ih (h.child he) hrun
  | case7 loc piece rest hvoid hup hlong hnone hslashes =>
    obtain ⟨rfl, rfl⟩ : loc = folder ∧ piece = name := by simpa using hrun
    have hempty : ∀ p ∈ rest, Path.isVoid p = true := by
      intro p hp
      have : p = [] := by simpa using List.all_eq_true.mp hslashes p hp
      simp [Path.isVoid, this]
    rw [Path.placeFrom, if_neg (by simpa [Path.isVoid] using hvoid), if_neg hup,
      Path.placeFrom_of_void hempty]
    exact ⟨rfl, hnone⟩
  | case8 => cases hrun

/-- What a path leads to stays where it is while the disk grows. -/
theorem Extends.follow_present (hext : Extends d d') {e x e' : Entry} {l : Location}
    {ps : List (List Char)} (h : Reached d loc e) (he : d'.entryAt? loc = some e')
    (hrun : d.follow loc e ps = .ok (.present l x)) :
    ∃ x', d'.follow loc e' ps = .ok (.present l x') ∧ d'.entryAt? l = some x' := by
  fun_induction follow d loc e ps generalizing e' with
  | case1 loc e =>
    obtain ⟨rfl, -⟩ : loc = l ∧ e = x := by simpa using hrun
    exact ⟨e', rfl, he⟩
  | case2 => cases hrun
  | case3 loc piece rest hvoid ih =>
    obtain rfl : e' = .folder := Option.some.inj (he.symm.trans (hext.folder _ h.entry))
    rw [follow, if_pos hvoid]
    exact ih h he hrun
  | case4 loc rest hvoid ih =>
    obtain rfl : e' = .folder := Option.some.inj (he.symm.trans (hext.folder _ h.entry))
    rw [follow, if_neg hvoid, if_pos rfl]
    exact ih h.parent (hext.folder _ h.parent.entry) hrun
  | case5 => cases hrun
  | case6 loc piece rest hvoid hup hlong next hnext ih =>
    obtain rfl : e' = .folder := Option.some.inj (he.symm.trans (hext.folder _ h.entry))
    obtain ⟨next', hnext'⟩ : ∃ next', d'.entryAt? (loc ++ [piece]) = some next' := by
      cases next with
      | folder => exact ⟨_, hext.folder _ hnext⟩
      | file bytes =>
        obtain ⟨bytes', hfile⟩ := hext.file _ _ hnext
        exact ⟨_, hfile⟩
    rw [follow, if_neg hvoid, if_neg hup, if_neg hlong, hnext']
    exact ih (h.child hnext) hnext' hrun
  | case7 => cases hrun
  | case8 => cases hrun

/-- A file put where a name was missing is found there, unless slashes follow the name. -/
theorem Extends.follow_absent (hext : Extends d d') {e : Entry} {folder : Location}
    {name : List Char} {bytes : ByteArray} {ps : List (List Char)} (h : Reached d loc e)
    (hfile : d'.entryAt? (folder ++ [name]) = some (.file bytes)) (hlast : ps.getLast? ≠ some [])
    (hrun : d.follow loc e ps = .ok (.absent folder name)) :
    d'.follow loc .folder ps = .ok (.present (folder ++ [name]) (.file bytes)) := by
  have hrest : ∀ {piece : List Char} {rest : List (List Char)}, (piece :: rest).getLast? ≠ some [] →
      rest.getLast? ≠ some [] := by
    intro piece rest hpiece hempty
    rw [List.getLast?_cons, hempty] at hpiece
    exact hpiece rfl
  fun_induction follow d loc e ps with
  | case1 => cases hrun
  | case2 => cases hrun
  | case3 loc piece rest hvoid ih =>
    rw [follow, if_pos hvoid]
    exact ih h (hrest hlast) hrun
  | case4 loc rest hvoid ih =>
    rw [follow, if_neg hvoid, if_pos rfl]
    exact ih h.parent (hrest hlast) hrun
  | case5 => cases hrun
  | case6 loc piece rest hvoid hup hlong next hnext ih =>
    obtain rfl : next = .folder := by
      cases next with
      | folder => rfl
      | file bytes => cases rest <;> cases hrun
    rw [follow, if_neg hvoid, if_neg hup, if_neg hlong, hext.folder _ hnext]
    exact ih (h.child hnext) (hrest hlast) hrun
  | case7 loc piece rest hvoid hup hlong hnone hslashes =>
    obtain ⟨rfl, rfl⟩ : loc = folder ∧ piece = name := by simpa using hrun
    obtain rfl : rest = [] := by
      rcases List.eq_nil_or_concat' rest with hnil | ⟨l, p, rfl⟩
      · exact hnil
      · have hp : p = [] := by simpa using List.all_eq_true.mp hslashes p (by simp)
        exact absurd (by simp [hp]) (hrest hlast)
    rw [follow, if_neg hvoid, if_neg hup, if_neg hlong, hfile]
    rfl
  | case8 => cases hrun

variable {p q : Path}

theorem trimSlashes_append (ps : List (List Char)) :
    ∃ tail, ps = trimSlashes ps ++ tail ∧ ∀ piece ∈ tail, piece = [] := by
  refine ⟨(ps.reverse.takeWhile (· = [])).reverse, ?_, ?_⟩
  · rw [trimSlashes, ← List.reverse_append, List.takeWhile_append_dropWhile, List.reverse_reverse]
  · intro piece hpiece
    simpa using List.mem_takeWhile_imp (List.mem_reverse.mp hpiece)

theorem placeFrom_trimSlashes (ps : List (List Char)) :
    Path.placeFrom loc (trimSlashes ps) = Path.placeFrom loc ps := by
  obtain ⟨tail, hps, htail⟩ := trimSlashes_append ps
  have hvoid : ∀ piece ∈ tail, Path.isVoid piece = true := by
    intro piece hpiece
    simp [Path.isVoid, htail piece hpiece]
  calc Path.placeFrom loc (trimSlashes ps)
      = Path.placeFrom (Path.placeFrom loc (trimSlashes ps)) tail :=
        (Path.placeFrom_of_void hvoid _).symm
    _ = Path.placeFrom loc (trimSlashes ps ++ tail) := (Path.placeFrom_append loc _ tail).symm
    _ = Path.placeFrom loc ps := by rw [← hps]

theorem getLast?_trimSlashes (ps : List (List Char)) : (trimSlashes ps).getLast? ≠ some [] := by
  rw [trimSlashes, List.getLast?_reverse]
  intro hempty
  have := List.head?_dropWhile_not (fun piece : List Char => decide (piece = [])) ps.reverse
  rw [hempty] at this
  simp at this

/-- A text that does not end in a slash has no slashes to trim. -/
theorem trimSlashes_pieces {cs : List Char} (hne : cs ≠ []) (hlast : cs.getLast? ≠ some '/') :
    trimSlashes (Path.pieces cs) = Path.pieces cs := by
  obtain ⟨tail, hps, htail⟩ := trimSlashes_append (Path.pieces cs)
  rcases List.eq_nil_or_concat tail with rfl | ⟨more, piece, rfl⟩
  · rw [List.append_nil] at hps
    exact hps.symm
  · -- The text of pieces of which the last is empty is empty or ends in a slash.
    exfalso
    have hpiece : piece = [] := htail piece (by simp)
    subst hpiece
    rw [List.concat_eq_append, ← List.append_assoc] at hps
    have hunite : ∀ ps : List (List Char), ps ≠ [] →
        Path.unite (ps ++ [[]]) = Path.unite ps ++ ['/'] := by
      intro ps hps
      induction ps with
      | nil => exact absurd rfl hps
      | cons a ps ih =>
        cases ps with
        | nil => rfl
        | cons b bs =>
          simp only [List.cons_append, Path.unite, List.append_assoc] at ih ⊢
          rw [ih (by simp)]
    have hcs := Path.unite_pieces cs
    rw [hps] at hcs
    by_cases hnil : trimSlashes (Path.pieces cs) ++ more = []
    · rw [hnil] at hcs
      exact hne hcs.symm
    · rw [hunite _ hnil] at hcs
      rw [← hcs] at hlast
      simp at hlast

theorem resolve_eq_ok {target : Target} :
    d.resolve p = .ok target ↔
      checkPath p = .ok () ∧ d.follow [] .folder (Path.pieces p.chars) = .ok target := by
  unfold resolve
  cases checkPath p with
  | ok u => simp [bind, Except.bind]
  | error e => simp [bind, Except.bind]

theorem resolveEntry_eq_ok {target : Target} :
    d.resolveEntry p = .ok target ↔
      checkPath p = .ok () ∧
        d.follow [] .folder (trimSlashes (Path.pieces p.chars)) = .ok target := by
  unfold resolveEntry
  cases checkPath p with
  | ok u => simp [bind, Except.bind]
  | error e => simp [bind, Except.bind]

theorem chars_ne_nil_of_checkPath (h : checkPath p = .ok ()) : p.chars ≠ [] := by
  intro hnil
  unfold checkPath Path.isEmpty at h
  rw [hnil] at h
  cases h

theorem place_of_resolve {loc : Location} {e : Entry} (h : d.resolve p = .ok (.present loc e)) :
    loc = p.place ∧ Reached d loc e :=
  (reached_nil d).follow_present (resolve_eq_ok.mp h).2

theorem place_of_resolveEntry {loc : Location} {e : Entry}
    (h : d.resolveEntry p = .ok (.present loc e)) : loc = p.place ∧ Reached d loc e := by
  obtain ⟨hloc, hreached⟩ := (reached_nil d).follow_present (resolveEntry_eq_ok.mp h).2
  exact ⟨hloc.trans (placeFrom_trimSlashes _), hreached⟩

theorem absent_of_resolveEntry {folder : Location} {name : List Char}
    (h : d.resolveEntry p = .ok (.absent folder name)) :
    folder ++ [name] = p.place ∧ d.entryAt? p.place = none := by
  obtain ⟨hloc, hnone⟩ := (reached_nil d).follow_absent (resolveEntry_eq_ok.mp h).2
  have hplace : folder ++ [name] = p.place := hloc.trans (placeFrom_trimSlashes _)
  exact ⟨hplace, hplace ▸ hnone⟩

theorem withFolder_furnished (h : d.withFolder p = .ok d') : Furnished d d' := by
  unfold withFolder at h
  cases hresolve : d.resolveEntry p with
  | error e =>
    rw [hresolve] at h
    cases h
  | ok target =>
    rw [hresolve] at h
    cases target with
    | present loc e => cases h
    | absent folder name =>
      obtain ⟨hplace, hnone⟩ := absent_of_resolveEntry hresolve
      rw [← Except.ok.inj h]
      exact furnished_put (by simp) (hplace ▸ hnone)

theorem ensureFolder_furnished (p : Path) (d : Disk) : Furnished d (left (ensureFolder p d)) := by
  unfold ensureFolder
  cases h : d.withFolder p with
  | ok made => exact withFolder_furnished h
  | error e =>
    simp only
    split <;> exact .refl d

/-- Whether or not a folder can be made with all that it lies in, at most folders are added. -/
theorem makeFolders_furnished (p : Path) (d : Disk) : Furnished d (left (makeFolders p d)) := by
  fun_induction makeFolders p d with
  | case1 => exact .refl _
  | case2 _ _ made h => exact withFolder_furnished h
  | case3 _ _ _ _ q _ u made hmade ih =>
    rw [hmade] at ih
    exact ih.trans (ensureFolder_furnished _ made)
  | case4 _ _ _ _ q _ e made hmade ih =>
    rw [hmade] at ih
    exact ih
  | case5 => exact .refl _
  | case6 => exact .refl _
  | case7 => exact .refl _

/-- The path leads to a file with the given text. -/
def Holds (d : Disk) (p : Path) (text : String) : Prop :=
  d.resolve p = .ok (.present p.place (.file text.toUTF8))

theorem Holds.read {text : String} (h : Holds d p text) : d.read p = .ok text.toUTF8 := by
  unfold Disk.read
  rw [show d.resolve p = _ from h]
  rfl

theorem entry_of_read {bytes : ByteArray} (h : d.read p = .ok bytes) :
    d.entryAt? p.place = some (.file bytes) := by
  unfold Disk.read at h
  cases hresolve : d.resolve p with
  | error e => simp [hresolve, bind, Except.bind] at h
  | ok target =>
    rw [hresolve] at h
    cases target with
    | absent folder name => cases h
    | present loc entry =>
      obtain ⟨hplace, hreached⟩ := place_of_resolve hresolve
      cases entry with
      | folder => cases h
      | file found =>
        obtain rfl : found = bytes := Except.ok.inj h
        exact hplace ▸ hreached.entry

theorem Holds.entry {text : String} (h : Holds d p text) :
    d.entryAt? p.place = some (.file text.toUTF8) := (place_of_resolve h).2.entry

theorem Holds.grown {text new : String} (h : Holds d p text) (hext : Extends d d')
    (hentry : d'.entryAt? p.place = some (.file new.toUTF8)) : Holds d' p new := by
  obtain ⟨hcheck, hfollow⟩ := resolve_eq_ok.mp h
  obtain ⟨x, hfollow', hx⟩ := hext.follow_present (reached_nil d) rfl hfollow
  refine resolve_eq_ok.mpr ⟨hcheck, ?_⟩
  rw [hfollow', Option.some.inj (hx.symm.trans hentry)]

/-- A file that is saved holds its text; elsewhere at most folders are added. -/
structure Saved (d d' : Disk) (p : Path) (text : String) : Prop where
  holds : Holds d' p text
  grown : Extends d d'
  others : ∀ l, l ≠ p.place → d'.entryAt? l = d.entryAt? l ∨
    (d.entryAt? l = none ∧ d'.entryAt? l = some .folder)

theorem extends_put (hloc : loc ≠ []) (hfree : d.entryAt? loc ≠ some .folder)
    (bytes : ByteArray) : Extends d (d.put loc (.file bytes)) := by
  constructor
  · intro l hl
    rw [entryAt?_put hloc, if_neg]
    · exact hl
    · rintro rfl
      exact hfree hl
  · intro l old hl
    rw [entryAt?_put hloc]
    split
    · exact ⟨bytes, rfl⟩
    · exact ⟨old, hl⟩

theorem Saved.of_put {text : String} (hcheck : checkPath p = .ok ())
    (hfree : d.entryAt? p.place ≠ some .folder)
    (hfollow : (d.put p.place (.file text.toUTF8)).follow [] .folder (Path.pieces p.chars) =
      .ok (.present p.place (.file text.toUTF8))) :
    Saved d (d.put p.place (.file text.toUTF8)) p text := by
  have hplace : p.place ≠ [] := fun hnil => hfree (hnil ▸ rfl)
  refine ⟨resolve_eq_ok.mpr ⟨hcheck, hfollow⟩, extends_put hplace hfree _, fun l hl => Or.inl ?_⟩
  rw [entryAt?_put hplace, if_neg hl]

theorem writeFile_saved {text : String} {u : Unit}
    (h : writeFile p text.toUTF8 d = .ok u d') : Saved d d' p text := by
  unfold writeFile at h
  rw [get_bind_run] at h
  cases hresolve : d.resolveEntry p with
  | error e =>
    rw [hresolve] at h
    cases h
  | ok target =>
    rw [hresolve] at h
    obtain ⟨hcheck, hfollow⟩ := resolveEntry_eq_ok.mp hresolve
    cases target with
    | absent folder name =>
      simp only at h
      split at h
      · cases h
      · rename_i hslash
        obtain ⟨-, rfl⟩ := EStateM.Result.ok.inj h
        obtain ⟨hplace, hnone⟩ := absent_of_resolveEntry hresolve
        have hfree : d.entryAt? p.place ≠ some .folder := by
          rw [hnone]
          nofun
        have hloc : p.place ≠ [] := hplace ▸ by simp
        rw [hplace]
        apply Saved.of_put hcheck hfree
        rw [← trimSlashes_pieces (chars_ne_nil_of_checkPath hcheck) hslash, ← hplace]
        refine (extends_put (hplace ▸ hloc) (hplace ▸ hfree) _).follow_absent (reached_nil d) ?_
          (getLast?_trimSlashes _) hfollow
        rw [entryAt?_put (by simp), if_pos rfl]
    | present loc entry =>
      cases entry with
      | folder => cases h
      | file old =>
        simp only at h
        split at h
        · cases h
        · rename_i hslash
          obtain ⟨-, rfl⟩ := EStateM.Result.ok.inj h
          obtain ⟨rfl, hreached⟩ := place_of_resolveEntry hresolve
          have hfree : d.entryAt? p.place ≠ some .folder := by
            rw [hreached.entry]
            nofun
          have hloc : p.place ≠ [] := fun hnil => hfree (hnil ▸ rfl)
          apply Saved.of_put hcheck hfree
          rw [← trimSlashes_pieces (chars_ne_nil_of_checkPath hcheck) hslash]
          obtain ⟨x, hfollow', hx⟩ :=
            (extends_put hloc hfree text.toUTF8).follow_present (reached_nil d) rfl hfollow
          rw [entryAt?_put hloc, if_pos rfl] at hx
          rw [hfollow', ← Option.some.inj hx]

theorem saveText_saved {text : String} {u : Unit} (h : saveText p text d = .ok u d') :
    Saved d d' p text := by
  obtain ⟨made, hmade, hwrite⟩ :
      ∃ made, Furnished d made ∧ writeFile p text.toUTF8 made = .ok u d' := by
    unfold saveText at h
    cases hparent : p.parent with
    | none =>
      rw [hparent] at h
      exact ⟨d, .refl d, h⟩
    | some folder =>
      rw [hparent] at h
      obtain ⟨v, made, hfolders, hwrite⟩ := bind_eq_ok h
      have hmade := makeFolders_furnished folder d
      rw [hfolders] at hmade
      exact ⟨made, hmade, hwrite⟩
  have hsaved := writeFile_saved hwrite
  refine ⟨hsaved.holds, hmade.grown.trans hsaved.grown, fun l hl => ?_⟩
  rcases hsaved.others l hl with hsame | ⟨hnone, hfolder⟩
  · rw [hsame]
    exact hmade l
  · rcases hmade l with hl | ⟨-, hl⟩
    · exact Or.inr ⟨hl ▸ hnone, hfolder⟩
    · rw [hl] at hnone
      cases hnone

/-- Saves files one after the other, up to the first that cannot be saved. -/
def saveAll (files : List (Path × String)) : Action Unit := files.forM fun x => saveText x.1 x.2

theorem Holds.saved {text new : String} (h : Holds d p text) (hsaved : Saved d d' q new)
    (hsame : q.place = p.place → new = text) : Holds d' p text := by
  by_cases hplace : q.place = p.place
  · exact h.grown hsaved.grown (by rw [← hplace, hsaved.holds.entry, hsame hplace])
  · refine h.grown hsaved.grown ?_
    rcases hsaved.others p.place (Ne.symm hplace) with hl | ⟨hnone, -⟩
    · exact hl.trans h.entry
    · rw [h.entry] at hnone
      cases hnone

theorem Holds.saveAll {files : List (Path × String)} {text : String} {u : Unit}
    (h : Holds d p text) (hrun : Disk.saveAll files d = .ok u d')
    (hsame : ∀ x ∈ files, x.1.place = p.place → x.2 = text) : Holds d' p text := by
  induction files generalizing d with
  | nil =>
    obtain ⟨-, rfl⟩ := EStateM.Result.ok.inj hrun
    exact h
  | cons x files ih =>
    obtain ⟨_, next, hsave, hrest⟩ := bind_eq_ok hrun
    exact ih (h.saved (saveText_saved hsave) (hsame x (by simp))) hrest fun y hy =>
      hsame y (by simp [hy])

/-- Of files that were all saved, each holds its own text unless another one with another text has
the same place. -/
theorem holds_of_saveAll {files : List (Path × String)} {u : Unit}
    (hrun : saveAll files d = .ok u d') {x : Path × String} (hx : x ∈ files)
    (hsame : ∀ y ∈ files, y.1.place = x.1.place → y.2 = x.2) : Holds d' x.1 x.2 := by
  induction files generalizing d with
  | nil => cases hx
  | cons y files ih =>
    obtain ⟨_, next, hsave, hrest⟩ := bind_eq_ok hrun
    rcases List.mem_cons.mp hx with rfl | hx
    · exact (saveText_saved hsave).holds.saveAll hrest fun z hz => hsame z (by simp [hz])
    · exact ih hrest hx fun z hz => hsame z (by simp [hz])

end Disk

end ModuleCompiler
