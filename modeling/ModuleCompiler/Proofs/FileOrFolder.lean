import ModuleCompiler.Proofs.Spelling

/-!
Opening a project by its folder or by its module file. The folder of a module file is the same
folder, in the same spelling, whether it is taken from the path of the file or named first and
extended by the name of the file. So the scan finds the same paths, the modules and types are owned
alike, and the two trees differ at most in the spelling of the project's own file. This holds as
long as there is a folder to name: the folder of a bare file name is the empty path, and nothing can
be scanned from that.
-/

namespace ModuleCompiler

namespace Path

variable {p q : Path} {name : List Char} {l : List (List Char)}

theorem trimVoid_concat_name (hname : IsName name) (ps : List (List Char)) :
    trimVoid (ps ++ [name]) = ps ++ [name] := by
  simp [trimVoid, hname.isVoid]

/-- A text is taken apart into the pieces it was put together from, but for a void piece. -/
theorem trimVoid_pieces_unite (hslash : ∀ piece ∈ l, '/' ∉ piece) (hlast : trimVoid l = l) :
    trimVoid (pieces (unite l)) = l := by
  by_cases hl : l = []
  · rw [hl]
    rfl
  · rw [pieces_unite hl hslash, hlast]

/-- A parent that ends in a slash is the root. -/
theorem eq_root_of_parent (h : p.parent = some q) (hslash : q.chars.getLast? = some '/') :
    q.chars = ['/'] := by
  obtain ⟨cs, hcs⟩ := List.getLast?_eq_some_iff.mp hslash
  have hpieces : pieces q.chars = pieces cs ++ [[]] := by
    rw [hcs, pieces_append_slash]
    rfl
  have hsteps : q.steps = [] := by
    refine (getLast?_parent h).resolve_right fun hend => ?_
    rw [hpieces, List.getLast?_concat] at hend
    cases hend
  rcases parent_split h with ⟨rfl, -⟩ | ⟨l, more, last, hq, hsplit, -, hlast, -⟩
  · cases hslash
  have hl : l = [] := by
    have hvoid : bodyParts l = [] := by
      have hparts := steps_eq_parts q
      rw [hsteps, hq, parts_of_lead hsplit hlast, List.filterMap_append, filterMap_leadParts,
        List.nil_append, filterMap_bodyParts] at hparts
      rw [bodyParts, show l.filter (!isVoid ·) = [] from hparts.symm, List.map_nil]
    rw [← hlast, trimVoid, List.reverse_eq_nil_iff, List.dropWhile_eq_nil_iff]
    intro piece hpiece
    by_contra hnamed
    rw [bodyParts, List.map_eq_nil_iff, List.filter_eq_nil_iff] at hvoid
    exact hvoid piece (List.mem_reverse.mp hpiece) (by simpa using hnamed)
  rw [hq, hl] at hslash ⊢
  rcases splitLead_cases p.chars with ⟨body, hs⟩ | hs | ⟨r, hs⟩ | hs <;> rw [hs] at hslash ⊢
  · rfl
  · cases hslash
  · cases hslash
  · cases hslash

/-- A parent is spelled in the one way that naming something in it and going back comes to. -/
theorem parent_join_of_parent (h : p.parent = some q) (hne : q.chars ≠ []) (hname : IsName name) :
    (q.join ⟨name⟩).parent = some q := by
  have hbody : pieces name = [name] := pieces_of_no_slash hname.2.2.2
  rw [join_name hname.2.2.2, if_neg hne]
  split
  · rename_i hslash
    obtain ⟨cs⟩ := q
    obtain rfl : cs = ['/'] := eq_root_of_parent h hslash
    have hlead : splitLead (['/'] ++ name) = (['/'], name) := rfl
    have hpieces : trimVoid (pieces (splitLead (['/'] ++ name)).2) = [] ++ [name] := by
      rw [hlead, hbody]
      exact trimVoid_concat_name hname []
    rw [parent_of_concat hpieces, hlead]
    rfl
  · rcases parent_split h with ⟨rfl, -⟩ | ⟨l, more, last, rfl, hsplit, -, hlast, -⟩
    · exact absurd rfl hne
    have hslash : ∀ piece ∈ l, '/' ∉ piece := fun piece hpiece =>
      no_slash_of_mem_pieces (by rw [hsplit]; exact List.mem_append_left _ hpiece)
    have hlead := splitLead_append_slash hne name
    rw [splitLead_of_body hsplit hlast] at hlead
    have hpieces : trimVoid (pieces (unite l ++ '/' :: name)) = pieces (unite l) ++ [name] := by
      rw [pieces_append_slash, hbody, trimVoid_concat_name hname]
    rw [parent_of_concat (by rw [hlead]; exact hpieces), hlead, trimVoid_pieces_unite hslash hlast]

end Path

namespace Project

open ModuleCompiler.Path (pieces stepsOf)

variable {d : Disk} {file p q : Path}

theorem parent_of_isModuleFile (hname : isModuleFile file = true) :
    file.parent = some (folderOf file) := by
  obtain ⟨q, hq⟩ := Path.exists_parent (p := file)
    (by rw [parts_of_isModuleFile hname, List.getLast?_concat])
  rw [folderOf, hq, Option.getD_some]

/-- The folder of a module file is scanned under its own spelling. -/
theorem scanRoot_folderOf (hname : isModuleFile file = true) (hne : (folderOf file).chars ≠ []) :
    scanRoot (folderOf file) = folderOf file := by
  have hparent := Path.parent_join_of_parent (parent_of_isModuleFile hname) hne
    isName_moduleFileName
  rw [scanRoot, Path.child, Path.ofString, folderOf, hparent, Option.getD_some]

theorem parts_folderOf_child (hname : isModuleFile file = true) :
    ((folderOf file).child moduleFileName).parts = file.parts := by
  rw [parts_of_isModuleFile hname]
  exact Path.parts_join isName_moduleFileName

theorem steps_of_isModuleFile (hname : isModuleFile file = true) :
    file.steps = (folderOf file).steps ++ [moduleFileName.toList] := by
  rw [Path.steps_eq_parts, parts_of_isModuleFile hname, List.filterMap_append,
    ← Path.steps_eq_parts]
  rfl

theorem isName_of_mem_moduleFile : ∀ name ∈ [moduleFileName.toList], Path.IsName name := by
  simpa using isName_moduleFileName

/-- The way through the folder is not longer than the path of the file, unless both are short. -/
theorem byteLength_folderOf_child (hname : isModuleFile file = true)
    (hne : (folderOf file).chars ≠ [])
    (hshort : Disk.byteLength file.chars ≤ Disk.maxPathBytes) :
    Disk.byteLength ((folderOf file).child moduleFileName).chars ≤ Disk.maxPathBytes := by
  rcases Path.pieces_parent (parent_of_isModuleFile hname) with hnil | hdot | hroot |
    ⟨more, -, hpieces⟩
  · exact absurd hnil hne
  · rw [Path.child, Path.join, hdot]
    decide
  · rw [Path.child, Path.join, hroot]
    decide
  · have hmore : [moduleFileName.toList].Sublist more := by
      have hsteps := steps_of_isModuleFile hname
      rw [Path.steps, hpieces, Path.stepsOf_append] at hsteps
      rw [← List.append_cancel_left hsteps]
      exact List.filter_sublist
    have hchild := Disk.byteLength_descend hne isName_of_mem_moduleFile (List.cons_ne_nil _ _)
    have hfile := Disk.span_pieces file.chars
    rw [hpieces, Disk.span_append] at hfile
    obtain ⟨tail, hstem, -⟩ := Path.stem_append (folderOf file)
    rw [hstem, Disk.span_append] at hfile
    have hspan := Disk.span_sublist hmore
    show Disk.byteLength (Disk.descend (folderOf file) [moduleFileName.toList]).chars ≤ _
    omega

/-- The same file is reached through its folder. -/
theorem resolve_folderOf_child (hfile : d.isFile file = true) (hname : isModuleFile file = true)
    (hne : (folderOf file).chars ≠ []) :
    d.resolve ((folderOf file).child moduleFileName) = d.resolve file := by
  obtain ⟨l, bytes, hresolve⟩ := Disk.resolve_of_isFile hfile
  obtain ⟨rfl, hreached⟩ := Disk.place_of_resolve hresolve
  obtain ⟨hnul, -, hshort⟩ := Disk.checkPath_eq_ok.mp (Disk.resolve_eq_ok.mp hresolve).1
  have hparent := parent_of_isModuleFile hname
  have hfolder := Disk.resolve_parent hfile hparent (by simpa [Path.isEmpty] using hne)
  have hplace : file.place = (folderOf file).place ++ [moduleFileName.toList] := by
    rw [Path.place_eq, steps_of_isModuleFile hname, Path.placeFrom_append, ← Path.place_eq,
      isName_moduleFileName.placeFrom]
  have hentry := hreached.entry
  rw [hplace] at hentry hresolve
  rw [hresolve]
  refine Disk.resolve_eq_ok.mpr ⟨Disk.checkPath_eq_ok.mpr ⟨?_, ?_, ?_⟩, ?_⟩
  · intro h
    have h : Char.ofNat 0 ∈ (Disk.descend (folderOf file) [moduleFileName.toList]).chars := h
    rcases Disk.mem_chars_descend (by decide) isName_of_mem_moduleFile h with h | ⟨name, hmem, h⟩
    · exact hnul ((Path.prefix_of_parent hparent).subset h)
    · rw [List.mem_singleton.mp hmem] at h
      exact absurd h (by decide)
  · exact Path.chars_join_ne_nil hne
  · exact byteLength_folderOf_child hname hne hshort
  · exact Disk.follow_join hne (Disk.resolve_eq_ok.mp hfolder).2 isName_moduleFileName (by decide)
      hentry

section Added

variable {o o' other : List Node} {files : List Path}

theorem fit_of_length_eq (hlength : other.length = o.length) {more : List Node}
    (h : fit (o ++ more) = .ok o') : fit (other ++ more) = .ok (other ++ more) := by
  obtain ⟨-, hle⟩ := fit_eq_ok h
  refine fit_of_le ?_
  rw [List.length_append] at hle ⊢
  omega

/-- What modules add to a tree depends on how many nodes it has, not on what they are. -/
theorem outlineModules_added {project : Entity} {modules : List (Entity × Path)}
    (hlength : other.length = o.length) (h : outlineModules d project modules files o = .ok o') :
    ∃ more, o' = o ++ more ∧
      outlineModules d project modules files other = .ok (other ++ more) := by
  induction files generalizing modules o other with
  | nil => exact ⟨[], by simpa [outlineModules] using h.symm, by simp [outlineModules]⟩
  | cons file rest ih =>
    rw [outlineModules] at h
    obtain ⟨m, hm, h⟩ := except_bind_eq_ok h
    obtain ⟨_, hfit, h⟩ := except_bind_eq_ok h
    have hother := fit_of_length_eq hlength hfit
    obtain ⟨rfl, -⟩ := fit_eq_ok hfit
    have hnext : ∀ added : List Node, (other ++ added).length = (o ++ added).length := by
      simp [hlength]
    obtain ⟨more, rfl, hmore⟩ := ih (hnext _) h
    refine ⟨_ :: more, List.append_assoc .., ?_⟩
    rw [outlineModules, hm, ok_bind]
    show fit _ >>= _ = _
    rw [hother, ok_bind, hlength, hmore, List.append_assoc, List.singleton_append]

/-- And so it is with types. -/
theorem outlineTypes_added {owner : Path → Entity} (hlength : other.length = o.length)
    (h : outlineTypes d owner files o = .ok o') :
    ∃ more, o' = o ++ more ∧ outlineTypes d owner files other = .ok (other ++ more) := by
  induction files generalizing o other with
  | nil => exact ⟨[], by simpa [outlineTypes] using h.symm, by simp [outlineTypes]⟩
  | cons file rest ih =>
    rw [outlineTypes] at h
    obtain ⟨t, ht, h⟩ := except_bind_eq_ok h
    obtain ⟨_, hfit, h⟩ := except_bind_eq_ok h
    have hother := fit_of_length_eq hlength hfit
    obtain ⟨rfl, -⟩ := fit_eq_ok hfit
    have hnext : ∀ added : List Node, (other ++ added).length = (o ++ added).length := by
      simp [hlength]
    obtain ⟨more, rfl, hmore⟩ := ih (hnext _) h
    refine ⟨typeBlock owner o.length (file, t) ++ more, List.append_assoc .., ?_⟩
    rw [outlineTypes, ht, ok_bind, hlength, hother, ok_bind, hmore, List.append_assoc]

end Added

/-- Two paths of one file, in the same folder under the same spelling. -/
structure SameFile (d : Disk) (p q : Path) : Prop where
  folder : folderOf q = folderOf p
  parts : q.parts = p.parts
  read : d.read q = d.read p

theorem SameFile.symm (h : SameFile d p q) : SameFile d q p :=
  ⟨h.folder.symm, h.parts.symm, h.read.symm⟩

theorem SameFile.scan (h : SameFile d p q) (root : Path) : scan d root q = scan d root p := by
  have hother : otherFiles q = otherFiles p := by
    funext visits
    refine List.filterMap_congr fun v _ => ?_
    rw [Path.same, Path.same, h.parts]
  unfold Project.scan
  rw [hother]

theorem SameFile.readText (h : SameFile d p q) {text : String} (ht : readText d p = .ok text) :
    readText d q = .ok text := by
  unfold Project.readText Disk.readText at ht ⊢
  rw [h.read]
  split at ht
  · exact ht
  · cases ht

theorem SameFile.describeModule (h : SameFile d p q) {m : ModuleDescription}
    (hm : describeModule d p = .ok m) : describeModule d q = .ok m := by
  obtain ⟨text, ht, hm⟩ := except_bind_eq_ok hm
  rw [Project.describeModule, h.readText ht, ok_bind]
  -- The path only shows in what is said of a file that is not in order.
  split at hm
  · cases hm
  · split at hm
    · exact hm
    · split at hm
      · exact hm
      · cases hm

theorem SameFile.ownerOf (h : SameFile d p q) (files : List Path) :
    ownerOf q files = ownerOf p files := by
  funext file
  simp only [Project.ownerOf, loadedModules_eq, h.folder]

/-- The nodes of a project are the same under both spellings, but for its own file. -/
theorem SameFile.outline (h : SameFile d p q) {o : List Node} (ho : outline d p = .ok o) :
    ∃ m rest, o = primitiveNodes ++ moduleNode p m :: rest ∧
      outline d q = .ok (primitiveNodes ++ moduleNode q m :: rest) := by
  obtain ⟨m, hm, ho⟩ := except_bind_eq_ok ho
  obtain ⟨_, hfit, ho⟩ := except_bind_eq_ok ho
  obtain ⟨files, hfiles, ho⟩ := except_bind_eq_ok ho
  obtain ⟨_, hfound, ho⟩ := except_bind_eq_ok ho
  obtain ⟨rfl, hle⟩ := fit_eq_ok hfit
  have hlength : (primitiveNodes ++ [moduleNode q m]).length =
      (primitiveNodes ++ [moduleNode p m]).length := by simp
  obtain ⟨modules, rfl, hmodules⟩ := outlineModules_added hlength hfound
  have hlength' : (primitiveNodes ++ [moduleNode q m] ++ modules).length =
      (primitiveNodes ++ [moduleNode p m] ++ modules).length := by simp
  obtain ⟨types, rfl, htypes⟩ := outlineTypes_added hlength' ho
  refine ⟨m, modules ++ types, by simp, ?_⟩
  rw [Project.outline, h.describeModule hm, ok_bind, fit_of_le (by simpa using hle), ok_bind,
    h.folder, h.scan, hfiles, ok_bind, hmodules, ok_bind, h.ownerOf, htypes]
  simp

end Project

namespace Store

variable {s t : Store} {o rest : List Node} {n n' : Node}

/-- An entity has a list of children if it has children. -/
theorem Linked.down_eq (h : s.Linked) (id : Entity) :
    s.down id = if s.childList id = [] then none else some (s.childList id) := by
  split
  · rename_i hnil
    exact h.down_eq_none hnil
  · rename_i hsome
    unfold childList at hsome ⊢
    cases hdown : s.down id with
    | none =>
      rw [hdown] at hsome
      exact absurd rfl hsome
    | some list => rfl

/-- Two stores with the same entities and components, links included, but for the file of one
entity, which they spell in two ways. -/
structure DifferInSpelling (s t : Store) (id : Entity) (p q : Path) : Prop where
  slots : t.slots = s.slots
  free : t.free = s.free
  component? : ∀ k other, k ≠ .fileRef ∨ other ≠ id → t.component? k other = s.component? k other
  file : s.component? .fileRef id = some p
  respelled : t.component? .fileRef id = some q
  same : p.same q = true

/-- Nodes that have the same parents have the same children. -/
theorem Shows.childList_replace (hs : s.Shows (o ++ n :: rest)) (ht : t.Shows (o ++ n' :: rest))
    (h : n' .parent = n .parent) (id : Entity) : t.childList id = s.childList id := by
  rw [ht.childList_eq, hs.childList_eq, picks, picks, picksFrom_append, picksFrom_append,
    picksFrom_cons, picksFrom_cons, h]

theorem Shows.component?_replace (hs : s.Shows (o ++ n :: rest)) (ht : t.Shows (o ++ n' :: rest))
    (h : ∀ k, k ≠ .fileRef → n' k = n k) (k : Kind) (id : Entity)
    (hother : k ≠ .fileRef ∨ id ≠ .first o.length) : t.component? k id = s.component? k id := by
  by_cases hk : k = .children
  · subst hk
    have hlist := hs.childList_replace ht (h .parent (by decide)) id
    show t.down id = s.down id
    rw [ht.consistent.toLinked.down_eq, hs.consistent.toLinked.down_eq, hlist]
  by_cases hvalid : s.isValid id = true
  · obtain ⟨i, -, rfl⟩ := hs.isValid_iff.mp hvalid
    rw [hs.component? i k hk, ht.component? i k hk, Shows.getElem?_replace (n := n) n' i]
    split
    · rename_i hi
      subst hi
      have hfile : k ≠ .fileRef := hother.resolve_right fun hne => hne rfl
      simp [h k hfile]
    · rfl
  · have hlength : (o ++ n' :: rest).length = (o ++ n :: rest).length := by simp
    have hvalid' : ¬ t.isValid id = true := by
      rwa [ht.isValid_iff, hlength, ← hs.isValid_iff]
    rw [hs.consistent.sound.component?_of_not_isValid k hvalid,
      ht.consistent.sound.component?_of_not_isValid k hvalid']

end Store

namespace Project

variable {d : Disk} {file p path : Path} {ast : Ast}

theorem moduleFileOf_of_isFile (hfile : d.isFile file = true) : moduleFileOf d file = file := by
  refine if_neg fun hfolder => ?_
  unfold Disk.isFile at hfile
  rw [of_decide_eq_true hfolder] at hfile
  cases hfile

/-- The tree of an opened project has the nodes of its outline. -/
theorem shows_of_openAt (hopen : openAt d path = .ok ast) :
    ∃ o, outline d (moduleFileOf d path) = .ok o ∧ ast.store.Shows o := by
  have hcomes := load_comesTo d (moduleFileOf d path)
  unfold openAt at hopen
  simp only at hopen
  split at hopen
  · cases houtline : outline d (moduleFileOf d path) with
    | error e =>
      rw [houtline] at hcomes
      obtain ⟨after, hload⟩ := hcomes
      rw [hload] at hopen
      cases hopen
    | ok o =>
      rw [houtline] at hcomes
      obtain ⟨after, hload, hshows⟩ := hcomes
      rw [hload] at hopen
      cases hopen
      exact ⟨o, rfl, hshows.store⟩
  · cases hopen

theorem openAt_iff_outline (hfile : d.isFile (moduleFileOf d path) = true)
    (hname : isModuleFile (moduleFileOf d path) = true) :
    (∃ ast, openAt d path = .ok ast) ↔ ∃ o, outline d (moduleFileOf d path) = .ok o := by
  rw [map_unit_eq_ok, map_unit_eq_ok, openAt_outline hfile hname]

theorem sameFile_folderOf (hfile : d.isFile p = true) (hname : isModuleFile p = true)
    (hne : (folderOf p).chars ≠ []) : SameFile d p ((folderOf p).child moduleFileName) := by
  refine ⟨scanRoot_folderOf hname hne, parts_folderOf_child hname, ?_⟩
  rw [Disk.read, Disk.read, resolve_folderOf_child hfile hname hne]

/-- Only the bare name of the file leads to the empty path. -/
theorem eq_moduleFileName (hfile : d.isFile p = true) (hname : isModuleFile p = true)
    (hempty : folderOf p = Path.empty) : p = .ofString moduleFileName := by
  obtain ⟨l, bytes, hresolve⟩ := Disk.resolve_of_isFile hfile
  obtain ⟨rfl, hreached⟩ := Disk.place_of_resolve hresolve
  have hfollow := Disk.follow_of_resolve hresolve
  have hparts := parts_of_isModuleFile hname
  rw [hempty, show Path.empty.parts = [] from rfl, List.nil_append] at hparts
  have hlead : (Path.splitLead p.chars).1 = [] := by
    rw [Path.parts_eq] at hparts
    rcases Path.splitLead_cases p.chars with ⟨body, hs⟩ | hs | ⟨r, hs⟩ | hs
    · rw [hs] at hparts
      cases hparts
    · rw [hs] at hparts
      cases hparts
    · rw [hs] at hparts
      cases hparts
    · rw [hs]
  have hne : p.chars ≠ [] := (Disk.checkPath_eq_ok.mp (Disk.resolve_eq_ok.mp hresolve).1).2.1
  obtain ⟨piece, ps, hpieces, hnamed⟩ := Path.pieces_of_no_lead hlead hne
  have hsteps : p.steps = [moduleFileName.toList] := by
    rw [Path.steps_eq_parts, hparts]
    rfl
  obtain rfl : piece = moduleFileName.toList := by
    rw [Path.steps, hpieces, Path.stepsOf_cons hnamed] at hsteps
    exact (List.cons.inj hsteps).1
  have hplace : p.place = [moduleFileName.toList] := by
    rw [Path.place_eq, hsteps, isName_moduleFileName.placeFrom, List.nil_append]
  -- Nothing can follow the name, since it leads to a file.
  have hps : ps = [] := by
    by_contra hps
    have hentry := hreached.entry
    rw [hplace, ← List.nil_append [moduleFileName.toList]] at hentry
    have hfirst := Disk.follow_name isName_moduleFileName (by decide) hentry
    rw [hpieces, ← List.singleton_append, Disk.follow_append_of_file hfirst hps] at hfollow
    cases hfollow
  obtain ⟨cs⟩ := p
  rw [Path.ofString, ← Path.unite_pieces cs, hpieces, hps]
  rfl

/-- The folder that a module file is in, as it can be opened: a dot stands for the empty path. -/
def namedFolder (file : Path) : Path :=
  if (folderOf file).isEmpty then .ofString "." else folderOf file

/-- A bare name is not opened, for its folder cannot be scanned. -/
theorem outline_moduleFileName {m : ModuleDescription}
    (hm : describeModule d (.ofString moduleFileName) = .ok m) :
    outline d (.ofString moduleFileName) =
      .error (.unscannable Path.empty ⟨Path.empty, .notFound⟩) := by
  have hfolder : folderOf (.ofString moduleFileName) = Path.empty := by decide
  rw [outline, hm, ok_bind, fit_of_le (by simp [primitiveNodes]; decide), ok_bind, hfolder]
  rfl

/-- The file of a module is the one thing in its node that depends on the file's path. -/
theorem moduleNode_of_ne {k : Kind} (hk : k ≠ .fileRef) (m : ModuleDescription) :
    moduleNode q m k = moduleNode p m k := by
  unfold moduleNode Node.put
  cases m.name <;> simp [Function.update, hk]

section Named

variable (hfile : d.isFile p = true) (hname : isModuleFile p = true)
  (hne : (folderOf p).chars ≠ [])

include hfile hname hne

theorem moduleFileOf_folderOf :
    moduleFileOf d (folderOf p) = (folderOf p).child moduleFileName := by
  refine moduleFileOf_of_isFolder (Disk.isFolder_iff.mpr ?_)
  exact Disk.resolve_parent hfile (parent_of_isModuleFile hname) (by simpa [Path.isEmpty] using hne)

theorem isFile_folderOf_child : d.isFile ((folderOf p).child moduleFileName) = true := by
  rw [Disk.isFile, Disk.entryNamed?, resolve_folderOf_child hfile hname hne]
  exact hfile

theorem openAt_folderOf_iff :
    (∃ ast, openAt d p = .ok ast) ↔ ∃ ast, openAt d (folderOf p) = .ok ast := by
  have hsame := sameFile_folderOf hfile hname hne
  have hp : moduleFileOf d p = p := moduleFileOf_of_isFile hfile
  have hq := moduleFileOf_folderOf hfile hname hne
  rw [openAt_iff_outline (by rwa [hp]) (by rwa [hp]),
    openAt_iff_outline (by rw [hq]; exact isFile_folderOf_child hfile hname hne)
      (by rw [hq]; exact isModuleFile_child _), hp, hq]
  constructor
  · rintro ⟨o, ho⟩
    obtain ⟨m, rest, -, hother⟩ := hsame.outline ho
    exact ⟨_, hother⟩
  · rintro ⟨o, ho⟩
    obtain ⟨m, rest, -, hother⟩ := hsame.symm.outline ho
    exact ⟨_, hother⟩

theorem differInSpelling_of_openAt {ast ast' : Ast} (hopen : openAt d p = .ok ast)
    (hopen' : openAt d (folderOf p) = .ok ast') :
    ast.store.DifferInSpelling ast'.store projectEntity p
      ((folderOf p).child moduleFileName) := by
  have hsame := sameFile_folderOf hfile hname hne
  obtain ⟨o, ho, hs⟩ := shows_of_openAt hopen
  obtain ⟨o', ho', ht⟩ := shows_of_openAt hopen'
  rw [moduleFileOf_of_isFile hfile] at ho
  rw [moduleFileOf_folderOf hfile hname hne] at ho'
  obtain ⟨m, rest, rfl, hother⟩ := hsame.outline ho
  obtain rfl := Except.ok.inj (ho'.symm.trans hother)
  refine ⟨?_, ht.free.trans hs.free.symm, ?_, ?_, ?_, decide_eq_true hsame.parts.symm⟩
  · rw [hs.slots, ht.slots]
    simp
  · exact hs.component?_replace ht fun k hk => moduleNode_of_ne hk m
  · exact (hs.component?_last (by decide)).trans (moduleNode_fileRef p m)
  · exact (ht.component?_last (by decide)).trans (moduleNode_fileRef _ m)

end Named

/-- A project is opened by its module file as by its folder, by every path of the file but its bare
name. -/
theorem opens_by_file_or_folder (hfile : d.isFile p = true) (hname : isModuleFile p = true) :
    ((∃ ast, openAt d p = .ok ast) ↔
      p ≠ .ofString moduleFileName ∧ ∃ ast, openAt d (namedFolder p) = .ok ast) ∧
    (∀ ast ast', openAt d p = .ok ast → openAt d (namedFolder p) = .ok ast' →
      ast.store.DifferInSpelling ast'.store projectEntity p
        ((namedFolder p).child moduleFileName)) ∧
    ∀ m, p = .ofString moduleFileName → describeModule d p = .ok m →
      openAt d p = .error (.unscannable Path.empty ⟨Path.empty, .notFound⟩) := by
  by_cases hbare : p = .ofString moduleFileName
  · have hfails : ∀ m, describeModule d p = .ok m →
        openAt d p = .error (.unscannable Path.empty ⟨Path.empty, .notFound⟩) := by
      intro m hm
      have hp : moduleFileOf d p = p := moduleFileOf_of_isFile hfile
      rw [map_unit_eq_error, openAt_outline (by rwa [hp]) (by rwa [hp]), hp, hbare,
        outline_moduleFileName (hbare ▸ hm)]
      rfl
    have hclosed : ∀ ast, openAt d p ≠ .ok ast := by
      intro ast hopen
      obtain ⟨o, ho, -⟩ := shows_of_openAt hopen
      rw [moduleFileOf_of_isFile hfile] at ho
      obtain ⟨m, hm, -⟩ := except_bind_eq_ok ho
      rw [hfails m hm] at hopen
      cases hopen
    refine ⟨⟨fun ⟨ast, hopen⟩ => absurd hopen (hclosed ast), fun h => absurd hbare h.1⟩,
      fun ast _ hopen => absurd hopen (hclosed ast), fun m _ => hfails m⟩
  · have hne : (folderOf p).chars ≠ [] := fun hnil =>
      hbare (eq_moduleFileName hfile hname (congrArg Path.mk hnil))
    have hnamed : namedFolder p = folderOf p := if_neg (by simpa [Path.isEmpty] using hne)
    rw [hnamed]
    exact ⟨(openAt_folderOf_iff hfile hname hne).trans (and_iff_right hbare).symm,
      fun ast ast' => differInSpelling_of_openAt hfile hname hne, fun m h => absurd h hbare⟩

/-- A path with a slash and a dot too many. -/
def shelfFile : Path := .ofString "p//./Module.rift"

theorem opens_by_file_or_folder_shelf :
    shelf.isFile shelfFile = true ∧ isModuleFile shelfFile = true ∧
      ∃ ast ast', openAt shelf shelfFile = .ok ast ∧ openAt shelf shelfPath = .ok ast' ∧
        ast.store.DifferInSpelling ast'.store projectEntity shelfFile
          (.ofString "p/Module.rift") := by
  have hfile : shelf.isFile shelfFile = true := by decide +kernel
  have hname : isModuleFile shelfFile = true := by decide +kernel
  have hopen : ∃ ast, openAt shelf shelfFile = .ok ast := by
    have hcheck : (openAt shelf shelfFile).isOk = true := by decide +kernel
    cases hrun : openAt shelf shelfFile with
    | ok ast => exact ⟨ast, rfl⟩
    | error e =>
      rw [hrun] at hcheck
      cases hcheck
  have hfolder : namedFolder shelfFile = shelfPath := by decide
  have hchild : shelfPath.child moduleFileName = .ofString "p/Module.rift" := by decide
  obtain ⟨hopens, hstores, -⟩ := opens_by_file_or_folder hfile hname
  obtain ⟨-, ast', hopen'⟩ := hopens.mp hopen
  obtain ⟨ast, hopen⟩ := hopen
  have hdiffer := hstores ast ast' hopen hopen'
  rw [hfolder, hchild] at hdiffer
  exact ⟨hfile, hname, ast, ast', hopen, hfolder ▸ hopen', hdiffer⟩

/-- A project in the top folder. -/
def lone : Disk where
  entries := [(["Module.rift".toList], .file "".toUTF8)]

/-- The project in the folder one is in opens by that folder, and not by the name of its file. -/
theorem bare_name_not_opened :
    lone.isFile (.ofString moduleFileName) = true ∧
      isModuleFile (.ofString moduleFileName) = true ∧
      namedFolder (.ofString moduleFileName) = .ofString "." ∧
      (openAt lone (.ofString ".")).isOk = true ∧
      (openAt lone (.ofString moduleFileName)).isOk = false := by
  decide +kernel

end Project

end ModuleCompiler
