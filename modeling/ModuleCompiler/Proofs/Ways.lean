import ModuleCompiler.Proofs.Sources

/-!
Ways along paths. The pieces of a path that name something are its steps, and the places that its
first steps lead to are on its way. Where no file stands in the way, the folder that a path names
can be made with all that it lacks, also if the way goes up and down; and afterwards every place on
the way is a folder.
-/

namespace ModuleCompiler

namespace Path

variable {p q : Path} {loc : Location}

/-- The pieces that name something. -/
def stepsOf (ps : List (List Char)) : List (List Char) := ps.filter (!isVoid ·)

/-- The steps of a path: the names in it, and the pieces that lead up. -/
def steps (p : Path) : List (List Char) := stepsOf (pieces p.chars)

theorem stepsOf_append (a b : List (List Char)) : stepsOf (a ++ b) = stepsOf a ++ stepsOf b :=
  List.filter_append ..

theorem stepsOf_of_void {ps : List (List Char)} (h : ∀ piece ∈ ps, isVoid piece = true) :
    stepsOf ps = [] := by
  simp only [stepsOf, List.filter_eq_nil_iff]
  intro piece hpiece
  simp [h piece hpiece]

theorem stepsOf_cons_void {piece : List Char} (h : isVoid piece = true) (ps : List (List Char)) :
    stepsOf (piece :: ps) = stepsOf ps := by
  simp [stepsOf, h]

theorem stepsOf_cons {piece : List Char} (h : isVoid piece = false) (ps : List (List Char)) :
    stepsOf (piece :: ps) = piece :: stepsOf ps := by
  simp [stepsOf, h]

theorem isVoid_of_mem_steps {piece : List Char} (h : piece ∈ p.steps) : isVoid piece = false := by
  simpa using (List.mem_filter.mp h).2

theorem mem_of_mem_pieces {cs piece : List Char} {c : Char} (h : piece ∈ pieces cs)
    (hc : c ∈ piece) : c ∈ cs := by
  induction cs generalizing piece with
  | nil =>
    rw [List.mem_singleton.mp h] at hc
    cases hc
  | cons x cs ih =>
    obtain ⟨first, rest, hp⟩ := List.exists_cons_of_ne_nil (pieces_ne_nil cs)
    by_cases hx : x = '/'
    · simp only [pieces, hx, if_true, List.mem_cons] at h
      rcases h with rfl | h
      · cases hc
      · exact List.mem_cons_of_mem _ (ih h hc)
    · simp only [pieces, hx, if_false, hp, List.mem_cons] at h
      rcases h with rfl | h
      · rcases List.mem_cons.mp hc with rfl | hc
        · exact List.mem_cons_self
        · exact List.mem_cons_of_mem _ (ih (by simp [hp]) hc)
      · exact List.mem_cons_of_mem _ (ih (by simp [hp, h]) hc)

/-- A step that does not lead up is a name. -/
theorem isName_of_mem_steps {piece : List Char} (h : piece ∈ p.steps)
    (hup : piece ≠ ['.', '.']) : IsName piece := by
  have hvoid := isVoid_of_mem_steps h
  simp only [isVoid, Bool.or_eq_false_iff, decide_eq_false_iff_not] at hvoid
  exact ⟨hvoid.1, hvoid.2, hup, no_slash_of_mem_pieces (List.mem_filter.mp h).1⟩

/-- Pieces that name nothing do not lead anywhere. -/
theorem placeFrom_stepsOf (loc : Location) (ps : List (List Char)) :
    placeFrom loc (stepsOf ps) = placeFrom loc ps := by
  induction ps generalizing loc with
  | nil => rfl
  | cons piece ps ih =>
    by_cases hvoid : isVoid piece = true
    · rw [stepsOf_cons_void hvoid, placeFrom, if_pos hvoid, ih]
    · rw [stepsOf_cons (by simpa using hvoid)]
      simp only [placeFrom, hvoid, ih]

theorem place_eq (p : Path) : p.place = placeFrom [] p.steps := (placeFrom_stepsOf [] _).symm

/-- The step that a part stands for. -/
def Part.step? : Part → Option (List Char)
  | .root => none
  | .here => none
  | .up => some ['.', '.']
  | .name text => some text

theorem step?_partOfPiece (piece : List Char) : (partOfPiece piece).step? = some piece := by
  unfold partOfPiece
  split
  · rename_i hup
    rw [hup]
    rfl
  · rfl

theorem filterMap_bodyParts (ps : List (List Char)) :
    (bodyParts ps).filterMap Part.step? = stepsOf ps := by
  rw [bodyParts, List.filterMap_map, ← List.filterMap_some (l := stepsOf ps)]
  exact List.filterMap_congr fun piece _ => step?_partOfPiece piece

theorem filterMap_leadParts (lead : List Char) : (leadParts lead).filterMap Part.step? = [] := by
  unfold leadParts
  split
  · rfl
  · split <;> rfl

theorem steps_eq_parts (p : Path) : p.steps = p.parts.filterMap Part.step? := by
  obtain ⟨cs⟩ := p
  have hcs := eq_append_splitLead cs
  rw [parts_eq, List.filterMap_append, filterMap_leadParts, filterMap_bodyParts, List.nil_append]
  show stepsOf (pieces cs) = stepsOf (pieces (splitLead cs).2)
  rcases splitLead_cases cs with ⟨body, hs⟩ | hs | ⟨r, hs⟩ | hs <;> rw [hs] at hcs ⊢
  · rw [hcs]
    rfl
  · rw [hcs]
    rfl
  · rw [hcs]
    simp [pieces, stepsOf, isVoid]

/-- Going to the parent takes the last step away. -/
theorem steps_parent (h : p.parent = some q) : q.steps = p.steps.dropLast := by
  rcases parent_split h with ⟨rfl, hhere⟩ | ⟨l, more, last, rfl, hpieces, -, hlast, hbody⟩
  · rw [steps_eq_parts p, hhere]
    rfl
  · rw [steps_eq_parts, steps_eq_parts p, parts_of_lead hpieces hlast, parts_eq p, hbody,
      List.filterMap_append, List.filterMap_append, List.filterMap_append, filterMap_leadParts,
      filterMap_bodyParts]
    simp [step?_partOfPiece]

/-- A path without a parent has no steps. -/
theorem steps_of_parent_none (h : p.parent = none) : p.steps = [] := by
  rcases List.eq_nil_or_concat (trimVoid (pieces (splitLead p.chars).2)) with hnil | ⟨l, last, hl⟩
  · rw [steps_eq_parts, parts_eq, ← bodyParts_trimVoid, hnil, List.filterMap_append,
      filterMap_leadParts]
    rfl
  · rw [List.concat_eq_append] at hl
    rw [parent_of_concat hl] at h
    cases h

/-- The parent of a path has no steps, or its last piece is one. -/
theorem getLast?_parent (h : p.parent = some q) :
    q.steps = [] ∨ (pieces q.chars).getLast?.map isVoid = some false := by
  rcases parent_split h with ⟨rfl, -⟩ | ⟨l, more, last, rfl, hpieces, -, hlast, -⟩
  · exact Or.inl rfl
  by_cases hl : l = []
  · refine Or.inl ?_
    rw [hl] at hpieces hlast ⊢
    rw [steps_eq_parts, parts_of_lead hpieces hlast, List.filterMap_append, filterMap_leadParts]
    rfl
  · refine Or.inr ?_
    have hslash : ∀ piece ∈ l, '/' ∉ piece := fun piece hpiece =>
      no_slash_of_mem_pieces (by rw [hpieces]; exact List.mem_append_left _ hpiece)
    have hend : l.getLast?.map isVoid = some false := by
      rw [List.getLast?_eq_some_getLast hl, Option.map_some, Option.some.injEq]
      exact getLast?_trimVoid l _ (by rw [hlast, List.getLast?_eq_some_getLast hl])
    have hunite := pieces_unite hl hslash
    rcases splitLead_cases p.chars with ⟨body, hs⟩ | hs | ⟨r, hs⟩ | hs
    · rw [List.getLast?_eq_some_getLast hl] at hend
      simpa [hs, pieces, hunite, List.getLast?_cons, List.getLast?_eq_some_getLast hl] using hend
    · rw [hs] at hpieces
      obtain ⟨piece, l, rfl⟩ := List.exists_cons_of_ne_nil hl
      obtain ⟨rfl, rfl, -⟩ : piece = [] ∧ l = [] ∧ more = [] := by simpa [pieces] using hpieces.symm
      cases hend
    · -- The slash after the dot is the first void piece of the body.
      rw [hs] at hpieces
      obtain ⟨piece, l, rfl⟩ := List.exists_cons_of_ne_nil hl
      obtain ⟨rfl, -⟩ : piece = [] ∧ pieces r = l ++ more := by
        simpa [pieces, eq_comm] using hpieces
      cases l with
      | nil => cases hend
      | cons second l =>
        have hbody : pieces (unite (second :: l)) = second :: l :=
          pieces_unite (by simp) fun piece hpiece => hslash piece (by simp [hpiece])
        simpa [hs, pieces, unite, hbody, List.getLast?_cons] using hend
    · simpa [hs, hunite] using hend

theorem steps_join (h : q.chars.head? ≠ some '/') : (p.join q).steps = p.steps ++ q.steps := by
  unfold join
  split
  case h_1 _ r hq => simp [hq] at h
  case h_2 hlast _ =>
    obtain ⟨cs⟩ := p
    obtain rfl : cs = [] := List.getLast?_eq_none_iff.mp hlast
    rfl
  case h_3 hlast _ =>
    obtain ⟨a, ha⟩ := List.getLast?_eq_some_iff.mp hlast
    rw [steps, steps, steps, ha, List.append_assoc, List.singleton_append, pieces_append_slash,
      show a ++ ['/'] = a ++ '/' :: [] from rfl, pieces_append_slash, stepsOf_append,
      stepsOf_append]
    simp [pieces, stepsOf, isVoid]
  case h_4 c _ _ _ =>
    rw [steps, steps, steps, pieces_append_slash, stepsOf_append]

/-- A place that the first steps of a path lead to. -/
def OnWay (p : Path) (loc : Location) : Prop := ∃ a, a <+: p.steps ∧ loc = placeFrom [] a

theorem onWay_place (p : Path) : p.OnWay p.place := ⟨p.steps, List.prefix_rfl, place_eq p⟩

theorem onWay_iff_of_parent (h : p.parent = some q) :
    p.OnWay loc ↔ q.OnWay loc ∨ loc = p.place := by
  rw [place_eq p]
  unfold OnWay
  rw [steps_parent h]
  rcases List.eq_nil_or_concat p.steps with hnil | ⟨init, last, hconcat⟩
  · rw [hnil]
    simp [placeFrom]
  · rw [hconcat, List.concat_eq_append, List.dropLast_concat]
    simp only [List.prefix_concat_iff]
    constructor
    · rintro ⟨a, rfl | ha, hloc⟩
      · exact Or.inr hloc
      · exact Or.inl ⟨a, ha, hloc⟩
    · rintro (⟨a, ha, hloc⟩ | hloc)
      · exact ⟨a, Or.inr ha, hloc⟩
      · exact ⟨_, Or.inl rfl, hloc⟩

theorem onWay_of_pieces {a b : List (List Char)} (h : pieces p.chars = a ++ b) :
    p.OnWay (placeFrom [] a) := by
  refine ⟨stepsOf a, ?_, (placeFrom_stepsOf [] a).symm⟩
  rw [steps, h, stepsOf_append]
  exact List.prefix_append ..

/-- The way along a path that is appended goes on from the end of the one before. -/
theorem onWay_join (h : q.chars.head? ≠ some '/') :
    (p.join q).OnWay loc ↔ p.OnWay loc ∨ ∃ a, a <+: q.steps ∧ loc = placeFrom p.place a := by
  unfold OnWay
  rw [steps_join h, place_eq p]
  constructor
  · rintro ⟨a, ha, rfl⟩
    rcases List.prefix_or_prefix_of_prefix ha (List.prefix_append ..) with hfirst | ⟨b, rfl⟩
    · exact Or.inl ⟨a, hfirst, rfl⟩
    · exact Or.inr ⟨b, (List.prefix_append_right_inj _).mp ha, placeFrom_append ..⟩
  · rintro (⟨a, ha, rfl⟩ | ⟨a, ha, rfl⟩)
    · exact ⟨a, ha.trans (List.prefix_append ..), rfl⟩
    · exact ⟨p.steps ++ a, (List.prefix_append_right_inj _).mpr ha, (placeFrom_append ..).symm⟩

theorem place_join_of_relative (h : q.chars.head? ≠ some '/') :
    (p.join q).place = placeFrom p.place q.steps := by
  rw [place_eq, steps_join h, placeFrom_append, ← place_eq]

/-- A path whose steps are all names. -/
def Straight (p : Path) : Prop := ['.', '.'] ∉ p.steps

instance (p : Path) : Decidable p.Straight := inferInstanceAs (Decidable (_ ∉ p.steps))

theorem placeFrom_of_straight {names : List (List Char)} (h : ∀ name ∈ names, IsName name) :
    placeFrom loc names = loc ++ names := by
  induction names generalizing loc with
  | nil => simp [placeFrom]
  | cons name names ih =>
    have hname := h name (by simp)
    rw [placeFrom, hname.isVoid, if_neg (by decide), if_neg hname.2.2.1,
      ih fun x hx => h x (by simp [hx]), List.append_assoc, List.singleton_append]

theorem Straight.isName (h : p.Straight) {name : List Char} (hname : name ∈ p.steps) :
    IsName name := isName_of_mem_steps hname fun hup => h (hup ▸ hname)

theorem Straight.parent (h : p.Straight) (hparent : p.parent = some q) : q.Straight := by
  intro hup
  rw [steps_parent hparent] at hup
  exact h (List.mem_of_mem_dropLast hup)

theorem Straight.place_eq (h : p.Straight) : p.place = p.steps := by
  rw [Path.place_eq, placeFrom_of_straight fun _ => h.isName, List.nil_append]

theorem Straight.onWay_iff (h : p.Straight) : p.OnWay loc ↔ loc <+: p.place := by
  have hall : ∀ a, a <+: p.steps → placeFrom [] a = a := fun a ha => by
    rw [placeFrom_of_straight fun name hname => h.isName (ha.subset hname), List.nil_append]
  rw [h.place_eq]
  constructor
  · rintro ⟨a, ha, rfl⟩
    rwa [hall a ha]
  · intro hloc
    exact ⟨loc, hloc, (hall loc hloc).symm⟩

end Path

namespace Disk

open ModuleCompiler.Path (stepsOf placeFrom isVoid)

variable {d d' : Disk} {p q : Path} {loc folder : Location} {name : List Char}

/-- Every place on the way is free or a folder. -/
def Passable (d : Disk) (p : Path) : Prop :=
  ∀ l, p.OnWay l → d.entryAt? l = none ∨ d.entryAt? l = some .folder

/-- Every place on the way is a folder. -/
def Paved (d : Disk) (p : Path) : Prop := ∀ l, p.OnWay l → d.entryAt? l = some .folder

/-- How far pieces lead from a folder: through folders all the way, or up to a missing name. -/
inductive Trail (d : Disk) (loc : Location) (ps : List (List Char)) : Prop
  | whole (run : d.follow loc .folder ps = .ok (.present (placeFrom loc ps) .folder))
      (folders : ∀ a, a <+: stepsOf ps → d.entryAt? (placeFrom loc a) = some .folder)
  | broken {a rest : List (List Char)} {name : List Char} (split : ps = a ++ name :: rest)
      (named : isVoid name = false) (down : name ≠ ['.', '.'])
      (folders : ∀ b, b <+: stepsOf a → d.entryAt? (placeFrom loc b) = some .folder)
      (missing : d.entryAt? (placeFrom loc (a ++ [name])) = none)
      (run : d.follow loc .folder ps =
        if rest.all (· = []) then .ok (.absent (placeFrom loc a) name) else .error .notFound)

section Trail

variable {next : Location} {piece : List Char} {ps : List (List Char)}

/-- A piece that names nothing can be gone through. -/
theorem Trail.void (h : Trail d loc ps) (hvoid : isVoid piece = true) :
    Trail d loc (piece :: ps) := by
  have hskip : d.follow loc .folder (piece :: ps) = d.follow loc .folder ps := by
    rw [follow, if_pos (by simpa [isVoid] using hvoid)]
  have hplace : ∀ rest, placeFrom loc (piece :: rest) = placeFrom loc rest := by
    intro rest
    rw [placeFrom, if_pos hvoid]
  cases h with
  | whole run folders =>
    refine .whole ?_ ?_
    · rw [hskip, hplace, run]
    · rwa [Path.stepsOf_cons_void hvoid]
  | @broken a rest name split named down folders missing run =>
    subst split
    refine .broken (a := piece :: a) rfl named down ?_ ?_ ?_
    · rwa [Path.stepsOf_cons_void hvoid]
    · rwa [List.cons_append, hplace]
    · rw [hskip, hplace, run]

/-- A step goes on from the place it leads to. -/
theorem Trail.step (h : Trail d next ps) (hloc : d.entryAt? loc = some .folder)
    (hstep : isVoid piece = false)
    (hplace : ∀ rest, placeFrom loc (piece :: rest) = placeFrom next rest)
    (hfollow : d.follow loc .folder (piece :: ps) = d.follow next .folder ps) :
    Trail d loc (piece :: ps) := by
  have hcons : ∀ {steps : List (List Char)},
      (∀ a, a <+: steps → d.entryAt? (placeFrom next a) = some .folder) →
      ∀ a, a <+: piece :: steps → d.entryAt? (placeFrom loc a) = some .folder := by
    intro steps hall a ha
    cases a with
    | nil => exact hloc
    | cons first a =>
      obtain ⟨hfirst, hrest⟩ := List.cons_prefix_cons.mp ha
      rw [hfirst, hplace]
      exact hall a hrest
  cases h with
  | whole run folders =>
    refine .whole ?_ ?_
    · rw [hfollow, hplace, run]
    · rw [Path.stepsOf_cons hstep]
      exact hcons folders
  | @broken a rest name split named down folders missing run =>
    subst split
    refine .broken (a := piece :: a) rfl named down ?_ ?_ ?_
    · rw [Path.stepsOf_cons hstep]
      exact hcons folders
    · rwa [List.cons_append, hplace]
    · rw [hfollow, hplace, run]

theorem Reached.trail (hloc : Reached d loc .folder)
    (hshort : ∀ piece ∈ ps, byteLength piece ≤ maxNameBytes)
    (hpass : ∀ a, a <+: stepsOf ps →
      d.entryAt? (placeFrom loc a) = none ∨ d.entryAt? (placeFrom loc a) = some .folder) :
    Trail d loc ps := by
  induction ps generalizing loc with
  | nil =>
    refine .whole rfl fun a ha => ?_
    rw [List.prefix_nil.mp ha]
    exact hloc.entry
  | cons piece ps ih =>
    have hrest : ∀ x ∈ ps, byteLength x ≤ maxNameBytes := fun x hx => hshort x (by simp [hx])
    by_cases hvoid : isVoid piece = true
    · rw [Path.stepsOf_cons_void hvoid] at hpass
      exact (ih hloc hrest hpass).void hvoid
    have hstep : isVoid piece = false := by simpa using hvoid
    have hnamed : ¬ (piece = [] || piece = ['.']) = true := by simpa [isVoid] using hvoid
    rw [Path.stepsOf_cons hstep] at hpass
    have hfurther : ∀ {next}, (∀ rest, placeFrom loc (piece :: rest) = placeFrom next rest) →
        ∀ a, a <+: stepsOf ps → d.entryAt? (placeFrom next a) = none ∨
          d.entryAt? (placeFrom next a) = some .folder := by
      intro next hplace a ha
      rw [← hplace]
      exact hpass _ (List.cons_prefix_cons.mpr ⟨rfl, ha⟩)
    by_cases hup : piece = ['.', '.']
    · have hplace : ∀ rest, placeFrom loc (piece :: rest) = placeFrom loc.dropLast rest := by
        intro rest
        rw [placeFrom, if_neg hvoid, if_pos hup]
      refine (ih hloc.parent hrest (hfurther hplace)).step hloc.entry hstep hplace ?_
      rw [follow, if_neg hnamed, if_pos hup]
    · have hplace : ∀ rest, placeFrom loc (piece :: rest) = placeFrom (loc ++ [piece]) rest := by
        intro rest
        rw [placeFrom, if_neg hvoid, if_neg hup]
      have hfits := Nat.not_lt.mpr (hshort piece (by simp))
      rcases hfurther hplace [] List.nil_prefix with hnone | hfolder
      · have hnone : d.entryAt? (loc ++ [piece]) = none := hnone
        refine .broken (a := []) rfl hstep hup ?_ ?_ ?_
        · intro b hb
          rw [List.prefix_nil.mp hb]
          exact hloc.entry
        · rw [List.nil_append, hplace]
          exact hnone
        · rw [follow, if_neg hnamed, if_neg hup, if_neg hfits, hnone]
          rfl
      · have hfolder : d.entryAt? (loc ++ [piece]) = some .folder := hfolder
        refine (ih (hloc.child hfolder) hrest (hfurther hplace)).step hloc.entry hstep hplace ?_
        rw [follow, if_neg hnamed, if_neg hup, if_neg hfits, hfolder]

end Trail

/-- A path that a request can take, of names that entries can have. -/
structure Usable (p : Path) : Prop where
  noNul : Char.ofNat 0 ∉ p.chars
  length : byteLength p.chars ≤ maxPathBytes
  names : ∀ piece ∈ Path.pieces p.chars, byteLength piece ≤ maxNameBytes

theorem Usable.checkPath (h : Usable p) (hne : p.chars ≠ []) : checkPath p = .ok () :=
  checkPath_eq_ok.mpr ⟨h.noNul, hne, h.length⟩

theorem trimSlashes_subset {ps : List (List Char)} : trimSlashes ps ⊆ ps := by
  obtain ⟨tail, hps, -⟩ := trimSlashes_append ps
  intro piece hpiece
  rw [hps]
  exact List.mem_append_left _ hpiece

theorem stepsOf_trimSlashes (ps : List (List Char)) : stepsOf (trimSlashes ps) = stepsOf ps := by
  obtain ⟨tail, hps, htail⟩ := trimSlashes_append ps
  have hvoid : ∀ piece ∈ tail, isVoid piece = true := by
    intro piece hpiece
    simp [isVoid, htail piece hpiece]
  conv => rhs; rw [hps]
  rw [Path.stepsOf_append, Path.stepsOf_of_void hvoid, List.append_nil]

/-- The trail along a path, with or without the slashes at its end. -/
theorem Passable.trail (hpass : Passable d p) (h : Usable p) {ps : List (List Char)}
    (hps : ps = Path.pieces p.chars ∨ ps = trimSlashes (Path.pieces p.chars)) : Trail d [] ps := by
  have hsteps : stepsOf ps = p.steps := by
    rcases hps with rfl | rfl
    · rfl
    · exact stepsOf_trimSlashes _
  refine (reached_nil d).trail ?_ fun a ha => hpass _ ⟨a, hsteps ▸ ha, rfl⟩
  rcases hps with rfl | rfl
  · exact h.names
  · exact fun piece hpiece => h.names piece (trimSlashes_subset hpiece)

theorem Paved.passable (h : Paved d p) : Passable d p := fun l hl => Or.inr (h l hl)

/-- A way that consists of folders can be gone. -/
theorem Paved.resolve (hpaved : Paved d p) (h : Usable p) (hne : p.chars ≠ []) :
    d.resolve p = .ok (.present p.place .folder) := by
  refine resolve_eq_ok.mpr ⟨h.checkPath hne, ?_⟩
  cases hpaved.passable.trail h (Or.inl rfl) with
  | whole run folders => exact run
  | @broken a rest name split named down folders missing run =>
    rw [hpaved _ (Path.onWay_of_pieces (split.trans (List.append_cons ..)))] at missing
    cases missing

/-- What a whole or a mended trail leaves to be seen: the folders on it are those on the way. -/
theorem paved_of_steps {ps : List (List Char)} (hsteps : stepsOf ps = p.steps)
    (h : ∀ a, a <+: stepsOf ps → d.entryAt? (placeFrom [] a) = some .folder) : Paved d p := by
  rintro l ⟨a, ha, rfl⟩
  exact h a (hsteps ▸ ha)

theorem withFolder_eq_ok (h : d.resolveEntry p = .ok (.absent loc name)) :
    d.withFolder p = .ok (d.put (loc ++ [name]) .folder) := by
  unfold withFolder
  rw [h]

theorem isFolder_iff : d.isFolder p = true ↔ d.resolve p = .ok (.present p.place .folder) := by
  unfold isFolder entryNamed?
  constructor
  · intro h
    cases hresolve : d.resolve p with
    | error e => simp [hresolve] at h
    | ok target =>
      cases target with
      | absent folder name => simp [hresolve] at h
      | present loc e =>
        have he : e = .folder := by simpa [hresolve] using h
        rw [he, (place_of_resolve hresolve).1]
  · intro h
    simp [h]

/-- Putting a folder where a trail breaks off mends it, if nothing is left of the way. -/
theorem Paved.of_put {a rest ps : List (List Char)} (hsteps : stepsOf ps = p.steps)
    (split : ps = a ++ name :: rest) (named : isVoid name = false) (hup : name ≠ ['.', '.'])
    (folders : ∀ b, b <+: stepsOf a → d.entryAt? (placeFrom [] b) = some .folder)
    (hrest : stepsOf rest = []) : Paved (d.put (placeFrom [] a ++ [name]) .folder) p := by
  have hname : placeFrom [] (stepsOf a ++ [name]) = placeFrom [] a ++ [name] := by
    have hone : ∀ l, placeFrom l [name] = l ++ [name] := by
      intro l
      simp [placeFrom, named, hup]
    rw [Path.placeFrom_append, Path.placeFrom_stepsOf, hone]
  refine paved_of_steps hsteps fun b hb => ?_
  rw [split, Path.stepsOf_append, Path.stepsOf_cons named, hrest] at hb
  rw [entryAt?_put (by simp)]
  split_ifs with hb'
  · rfl
  · rcases List.prefix_concat_iff.mp hb with rfl | hb
    · exact absurd hname hb'
    · exact folders b hb

/-- What comes of making one folder where no file stands in the way. -/
inductive Making (d : Disk) (p : Path) : Prop
  | there (run : d.withFolder p = .error .alreadyExists) (paved : Paved d p)
  | done {made : Disk} (run : d.withFolder p = .ok made) (paved : Paved made p)
  | lacking {a rest : List (List Char)} {name : List Char}
      (split : trimSlashes (Path.pieces p.chars) = a ++ name :: rest) (named : isVoid name = false)
      (missing : d.entryAt? (placeFrom [] (a ++ [name])) = none)
      (more : rest.all (· = []) = false) (run : d.withFolder p = .error .notFound)

theorem Passable.making (hpass : Passable d p) (h : Usable p) (hne : p.chars ≠ []) :
    Making d p := by
  have hsteps : stepsOf (trimSlashes (Path.pieces p.chars)) = p.steps := stepsOf_trimSlashes _
  have hcheck := h.checkPath hne
  cases hpass.trail h (Or.inr rfl) with
  | whole run folders =>
    refine .there ?_ (paved_of_steps hsteps folders)
    unfold withFolder
    rw [resolveEntry_eq_ok.mpr ⟨hcheck, run⟩]
  | @broken a rest name split named down folders missing run =>
    cases hrest : rest.all (· = []) with
    | true =>
      rw [hrest] at run
      have hvoid : ∀ piece ∈ rest, isVoid piece = true := by
        intro piece hpiece
        have : piece = [] := by simpa using List.all_eq_true.mp hrest piece hpiece
        simp [isVoid, this]
      exact .done (withFolder_eq_ok (resolveEntry_eq_ok.mpr ⟨hcheck, run⟩))
        (Paved.of_put hsteps split named down folders (Path.stepsOf_of_void hvoid))
    | false =>
      refine .lacking split named missing hrest ?_
      have hresolve : d.resolveEntry p = .error .notFound := by
        rw [resolveEntry, hcheck]
        rw [hrest] at run
        exact run
      unfold withFolder
      rw [hresolve]

/-- The last step can be made once the way of the parent consists of folders. -/
theorem ensureFolder_run (hpass : Passable d p) (h : Usable p) (hne : p.chars ≠ [])
    (hlast : (trimSlashes (Path.pieces p.chars)).getLast? ≠ some ['.'])
    (hparent : p.parent = some q) (hway : Paved d q) :
    ∃ d', ensureFolder p d = .ok () d' ∧ Paved d' p := by
  cases hpass.making h hne with
  | there run paved =>
    refine ⟨d, ?_, paved⟩
    simp only [ensureFolder, run, isFolder_iff.mpr (paved.resolve h hne), if_true]
  | @done made run paved =>
    refine ⟨made, ?_, paved⟩
    simp only [ensureFolder, run]
  | @lacking a rest name split named missing more run =>
    exfalso
    -- What is missing is not on the way of the parent, so it is the end of the way.
    have hrest : stepsOf rest = [] := by
      by_contra hmore
      have hopens : stepsOf (a ++ [name]) <+: q.steps := by
        rw [Path.steps_parent hparent, Path.steps, ← stepsOf_trimSlashes (Path.pieces p.chars),
          split, List.append_cons a name rest, Path.stepsOf_append (a ++ [name]) rest,
          List.dropLast_append_of_ne_nil hmore]
        exact List.prefix_append ..
      rw [hway _ ⟨_, hopens, (Path.placeFrom_stepsOf ..).symm⟩] at missing
      cases missing
    rcases List.eq_nil_or_concat' rest with rfl | ⟨init, last, rfl⟩
    · cases more
    · have hend : (trimSlashes (Path.pieces p.chars)).getLast? = some last := by
        rw [split, ← List.cons_append, ← List.append_assoc, List.getLast?_concat]
      have hvoid : isVoid last = true := by
        by_contra hnamed
        rw [Path.stepsOf_append, Path.stepsOf_cons (by simpa using hnamed)] at hrest
        simp at hrest
      rcases (by simpa [isVoid] using hvoid : last = [] ∨ last = ['.']) with rfl | rfl
      · exact getLast?_trimSlashes _ hend
      · exact hlast hend

theorem Usable.parent (h : Usable p) (hparent : p.parent = some q) : Usable q := by
  have hfirst := Path.prefix_of_parent hparent
  refine ⟨fun hin => h.noNul (hfirst.subset hin), (byteLength_mono hfirst).trans h.length, ?_⟩
  rcases Path.pieces_parent hparent with hq | hq | hq | ⟨more, -, hpieces⟩
  · rw [hq]
    decide
  · rw [hq]
    decide
  · rw [hq]
    decide
  · intro piece hpiece
    exact h.names piece (by rw [hpieces]; exact List.mem_append_left _ hpiece)

theorem Passable.parent (h : Passable d p) (hparent : p.parent = some q) : Passable d q :=
  fun l hl => h l ((Path.onWay_iff_of_parent hparent).mpr (Or.inl hl))

/-- The last piece of a parent is a step, if it has steps. -/
theorem last_parent (hparent : p.parent = some q) :
    q.steps = [] ∨ (trimSlashes (Path.pieces q.chars)).getLast? ≠ some ['.'] := by
  rcases Path.getLast?_parent hparent with hsteps | hlast
  · exact Or.inl hsteps
  · refine Or.inr fun hdot => ?_
    obtain ⟨tail, hps, htail⟩ := trimSlashes_append (Path.pieces q.chars)
    rw [hps, List.getLast?_append, hdot] at hlast
    cases htail' : tail.getLast? with
    | none =>
      rw [htail'] at hlast
      cases hlast
    | some last =>
      rw [htail', htail last (List.mem_of_getLast? htail')] at hlast
      cases hlast

theorem Passable.grown (h : Passable d p) (hgrown : Furnished d d') : Passable d' p := by
  intro l hl
  rcases hgrown l with hsame | ⟨-, hfolder⟩
  · rw [hsame]
    exact h l hl
  · exact Or.inr hfolder

theorem chars_ne_nil_of_isEmpty (h : ¬ p.isEmpty = true) : p.chars ≠ [] := by
  simpa [Path.isEmpty] using h

/-- A folder that lacks more than its last name has steps. -/
theorem steps_ne_nil_of_split {a rest : List (List Char)}
    (split : trimSlashes (Path.pieces p.chars) = a ++ name :: rest) (named : isVoid name = false) :
    p.steps ≠ [] := by
  rw [Path.steps, ← stepsOf_trimSlashes, split, Path.stepsOf_append, Path.stepsOf_cons named]
  simp

/-- Where no file stands in the way, a folder is made with all that it lacks. -/
theorem makeFolders_run (hpass : Passable d p) (h : Usable p)
    (hlast : p.steps = [] ∨ (trimSlashes (Path.pieces p.chars)).getLast? ≠ some ['.']) :
    ∃ d', makeFolders p d = .ok () d' ∧ Paved d' p := by
  fun_induction makeFolders p d with
  | case1 p hempty =>
    refine ⟨d, rfl, ?_⟩
    obtain rfl : p = Path.empty := by
      obtain ⟨cs⟩ := p
      exact congrArg Path.mk (List.isEmpty_iff.mp hempty)
    rintro l ⟨a, ha, rfl⟩
    rw [List.prefix_nil.mp ha]
    rfl
  | case2 p hempty made hmade =>
    cases hpass.making h (chars_ne_nil_of_isEmpty hempty) with
    | there run paved => cases hmade.symm.trans run
    | done run paved => exact ⟨made, rfl, Except.ok.inj (hmade.symm.trans run) ▸ paved⟩
    | lacking split named missing more run => cases hmade.symm.trans run
  | case3 p hempty hmissing q hparent hlength u made hrun ih =>
    cases hpass.making h (chars_ne_nil_of_isEmpty hempty) with
    | there run paved => cases hmissing.symm.trans run
    | done run paved => cases hmissing.symm.trans run
    | lacking split named missing more run =>
      obtain ⟨d', hparents, hpaved⟩ := ih (hpass.parent hparent) (h.parent hparent)
        (last_parent hparent)
      obtain ⟨-, rfl⟩ := EStateM.Result.ok.inj (hrun.symm.trans hparents)
      have hgrown := makeFolders_furnished q d
      rw [hrun] at hgrown
      exact ensureFolder_run (hpass.grown hgrown) h (chars_ne_nil_of_isEmpty hempty)
        (hlast.resolve_left (steps_ne_nil_of_split split named)) hparent hpaved
  | case4 p hempty hmissing q hparent hlength e made hrun ih =>
    obtain ⟨d', hparents, -⟩ := ih (hpass.parent hparent) (h.parent hparent) (last_parent hparent)
    cases hrun.symm.trans hparents
  | case5 p hempty hmissing hparent =>
    cases hpass.making h (chars_ne_nil_of_isEmpty hempty) with
    | there run paved => cases hmissing.symm.trans run
    | done run paved => cases hmissing.symm.trans run
    | lacking split named missing more run =>
      exact absurd (Path.steps_of_parent_none hparent) (steps_ne_nil_of_split split named)
  | case6 p hempty e hother herror hfolder =>
    cases hpass.making h (chars_ne_nil_of_isEmpty hempty) with
    | there run paved => exact ⟨d, rfl, paved⟩
    | done run paved => cases herror.symm.trans run
    | lacking split named missing more run =>
      exact absurd (Except.error.inj (herror.symm.trans run)) hother
  | case7 p hempty e hother herror hfolder =>
    have hne := chars_ne_nil_of_isEmpty hempty
    cases hpass.making h hne with
    | there run paved => exact absurd (isFolder_iff.mpr (paved.resolve h hne)) hfolder
    | done run paved => cases herror.symm.trans run
    | lacking split named missing more run =>
      exact absurd (Except.error.inj (herror.symm.trans run)) hother

theorem Reached.paved {e : Entry} {l : Location} {ps : List (List Char)} (h : Reached d loc e)
    (hrun : d.follow loc e ps = .ok (.present l .folder)) :
    ∀ a, a <+: stepsOf ps → d.entryAt? (placeFrom loc a) = some .folder := by
  fun_induction follow d loc e ps with
  | case1 loc e =>
    obtain ⟨rfl, rfl⟩ : loc = l ∧ e = .folder := by simpa using hrun
    intro a ha
    rw [List.prefix_nil.mp ha]
    exact h.entry
  | case2 => cases hrun
  | case3 loc piece rest hvoid ih =>
    rw [Path.stepsOf_cons_void (by simpa [isVoid] using hvoid)]
    exact ih h hrun
  | case4 loc rest hvoid ih =>
    intro a ha
    rw [Path.stepsOf_cons (by decide)] at ha
    cases a with
    | nil => exact h.entry
    | cons first a =>
      obtain ⟨rfl, hmore⟩ := List.cons_prefix_cons.mp ha
      exact ih h.parent hrun a hmore
  | case5 => cases hrun
  | case6 loc piece rest hvoid hup hlong next hnext ih =>
    have hstep : isVoid piece = false := by simpa [isVoid] using hvoid
    intro a ha
    rw [Path.stepsOf_cons hstep] at ha
    cases a with
    | nil => exact h.entry
    | cons first a =>
      obtain ⟨rfl, hmore⟩ := List.cons_prefix_cons.mp ha
      rw [placeFrom, hstep, if_neg (by decide), if_neg hup]
      exact ih (h.child hnext) hrun a hmore
  | case7 => cases hrun
  | case8 => cases hrun

theorem byteLength_of_follow {e x : Entry} {l : Location} {ps : List (List Char)}
    (hrun : d.follow loc e ps = .ok (.present l x)) :
    ∀ piece ∈ ps, byteLength piece ≤ maxNameBytes := by
  fun_induction follow d loc e ps with
  | case1 => simp
  | case2 => cases hrun
  | case3 loc piece rest hvoid ih =>
    have hshort : byteLength piece ≤ maxNameBytes := by
      rcases (by simpa using hvoid : piece = [] ∨ piece = ['.']) with rfl | rfl <;> decide
    exact List.forall_mem_cons.mpr ⟨hshort, ih hrun⟩
  | case4 loc rest hvoid ih => exact List.forall_mem_cons.mpr ⟨by decide, ih hrun⟩
  | case5 => cases hrun
  | case6 loc piece rest hvoid hup hlong next hnext ih =>
    exact List.forall_mem_cons.mpr ⟨Nat.le_of_not_lt hlong, ih hrun⟩
  | case7 => cases hrun
  | case8 => cases hrun

theorem usable_of_resolve {e : Entry} (h : d.resolve p = .ok (.present loc e)) : Usable p := by
  obtain ⟨hcheck, hfollow⟩ := resolve_eq_ok.mp h
  obtain ⟨hnul, -, hlength⟩ := checkPath_eq_ok.mp hcheck
  exact ⟨hnul, hlength, byteLength_of_follow hfollow⟩

theorem paved_of_resolve (h : d.resolve p = .ok (.present loc .folder)) : Paved d p :=
  paved_of_steps rfl ((reached_nil d).paved (resolve_eq_ok.mp h).2)

/-- A path leads to a folder exactly if its way consists of folders. -/
theorem resolve_iff_paved :
    d.resolve p = .ok (.present p.place .folder) ↔ p.chars ≠ [] ∧ Usable p ∧ Paved d p := by
  constructor
  · intro h
    exact ⟨chars_ne_nil_of_checkPath (resolve_eq_ok.mp h).1, usable_of_resolve h,
      paved_of_resolve h⟩
  · rintro ⟨hne, husable, hpaved⟩
    exact hpaved.resolve husable hne

/-- What it takes for the last name of a path to be the only one that is missing. -/
theorem follow_absent_split {e : Entry} {ps : List (List Char)}
    (h : d.follow loc e ps = .ok (.absent folder name)) :
    ∃ a rest, ps = a ++ name :: rest ∧ d.follow loc e a = .ok (.present folder .folder) ∧
      isVoid name = false ∧ name ≠ ['.', '.'] ∧ byteLength name ≤ maxNameBytes ∧
      d.entryAt? (folder ++ [name]) = none ∧ ∀ piece ∈ rest, piece = [] := by
  fun_induction follow d loc e ps with
  | case1 => cases h
  | case2 => cases h
  | case3 loc piece rest hvoid ih =>
    obtain ⟨a, more, rfl, hrun, hname⟩ := ih h
    refine ⟨piece :: a, more, rfl, ?_, hname⟩
    rwa [follow, if_pos hvoid]
  | case4 loc rest hvoid ih =>
    obtain ⟨a, more, rfl, hrun, hname⟩ := ih h
    refine ⟨['.', '.'] :: a, more, rfl, ?_, hname⟩
    rwa [follow, if_neg hvoid, if_pos rfl]
  | case5 => cases h
  | case6 loc piece rest hvoid hup hlong next hnext ih =>
    obtain ⟨a, more, rfl, hrun, hname⟩ := ih h
    refine ⟨piece :: a, more, rfl, ?_, hname⟩
    rwa [follow, if_neg hvoid, if_neg hup, if_neg hlong, hnext]
  | case7 loc piece rest hvoid hup hlong hnone hslashes =>
    obtain ⟨rfl, rfl⟩ : loc = folder ∧ piece = name := by simpa using h
    refine ⟨[], rest, rfl, rfl, by simpa [isVoid] using hvoid, hup, Nat.le_of_not_lt hlong, hnone,
      ?_⟩
    intro piece hpiece
    simpa using List.all_eq_true.mp hslashes piece hpiece
  | case8 => cases h

theorem usable_of_absent (h : d.resolveEntry p = .ok (.absent folder name)) : Usable p := by
  obtain ⟨hcheck, hfollow⟩ := resolveEntry_eq_ok.mp h
  obtain ⟨hnul, -, hlength⟩ := checkPath_eq_ok.mp hcheck
  obtain ⟨a, rest, hsplit, hrun, -, -, hshort, -, hrest⟩ := follow_absent_split hfollow
  obtain ⟨tail, hps, htail⟩ := trimSlashes_append (Path.pieces p.chars)
  refine ⟨hnul, hlength, fun piece hpiece => ?_⟩
  have hempty : byteLength [] ≤ maxNameBytes := by decide
  rw [hps, hsplit] at hpiece
  simp only [List.mem_append, List.mem_cons] at hpiece
  rcases hpiece with (hin | rfl | hin) | hin
  · exact byteLength_of_follow hrun piece hin
  · exact hshort
  · exact hrest piece hin ▸ hempty
  · exact htail piece hin ▸ hempty

/-- A folder that was made can be reached. -/
theorem withFolder_paved (h : d.withFolder p = .ok d') : Usable p ∧ Paved d' p := by
  unfold withFolder at h
  cases hresolve : d.resolveEntry p with
  | error e =>
    rw [hresolve] at h
    cases h
  | ok target =>
    rw [hresolve] at h
    cases target with
    | present loc e => cases h
    | absent folder name =>
      obtain ⟨hcheck, hfollow⟩ := resolveEntry_eq_ok.mp hresolve
      obtain ⟨a, rest, hsplit, hrun, hnamed, hup, -, -, hrest⟩ := follow_absent_split hfollow
      have hvoid : ∀ piece ∈ rest, isVoid piece = true := by
        intro piece hpiece
        simp [isVoid, hrest piece hpiece]
      rw [((reached_nil d).follow_present hrun).1] at h
      rw [← Except.ok.inj h]
      exact ⟨usable_of_absent hresolve, Paved.of_put (stepsOf_trimSlashes _) hsplit hnamed hup
        ((reached_nil d).paved hrun) (Path.stepsOf_of_void hvoid)⟩

theorem ensureFolder_paved {u : Unit} (h : ensureFolder p d = .ok u d') :
    Usable p ∧ Paved d' p := by
  unfold ensureFolder at h
  cases hmade : d.withFolder p with
  | ok made =>
    rw [hmade] at h
    obtain ⟨-, rfl⟩ := EStateM.Result.ok.inj h
    exact withFolder_paved hmade
  | error e =>
    rw [hmade] at h
    simp only at h
    split at h
    · rename_i hfolder
      obtain ⟨-, rfl⟩ := EStateM.Result.ok.inj h
      exact (resolve_iff_paved.mp (isFolder_iff.mp hfolder)).2
    · cases h

theorem makeFolders_paved {u : Unit} (h : makeFolders p d = .ok u d') (hne : p.chars ≠ []) :
    Usable p ∧ Paved d' p := by
  fun_induction makeFolders p d with
  | case1 p hempty => exact absurd (List.isEmpty_iff.mp hempty) hne
  | case2 p hempty made hmade =>
    obtain ⟨-, rfl⟩ := EStateM.Result.ok.inj h
    exact withFolder_paved hmade
  | case3 p hempty hmissing q hparent hlength v made hrun ih => exact ensureFolder_paved h
  | case4 => cases h
  | case5 => cases h
  | case6 p hempty e hother herror hfolder =>
    obtain ⟨-, rfl⟩ := EStateM.Result.ok.inj h
    exact (resolve_iff_paved.mp (isFolder_iff.mp hfolder)).2
  | case7 => cases h

end Disk

end ModuleCompiler
