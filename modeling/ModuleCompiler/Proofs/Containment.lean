import ModuleCompiler.Proofs.Frames

/-!
Where a build writes. The names of modules are appended to the paths of the output folders as they
are. What is written for a module stays inside these folders if its name is a relative path that
never climbs above where it starts; every other name leads out of them in some configuration, and
nothing looks out for that.
-/

namespace ModuleCompiler

namespace Path

variable {p q : Path} {base : Location} {moves : List (List Char)}

/-- Whether steps never lead above a place from so many folders below it. -/
def staysFrom : Nat → List (List Char) → Bool
  | _, [] => true
  | depth, step :: rest =>
    if step = ['.', '.'] then
      match depth with
      | 0 => false
      | depth + 1 => staysFrom depth rest
    else staysFrom (depth + 1) rest

/-- A relative path that never climbs above where it starts. -/
def Stays (p : Path) : Prop := p.chars.head? ≠ some '/' ∧ staysFrom 0 p.steps = true

instance (p : Path) : Decidable p.Stays :=
  inferInstanceAs (Decidable (_ ∧ staysFrom 0 p.steps = true))

theorem placeFrom_up (rest : List (List Char)) :
    placeFrom base (['.', '.'] :: rest) = placeFrom base.dropLast rest := rfl

theorem placeFrom_down {step : List Char} (hvoid : isVoid step = false) (hup : step ≠ ['.', '.'])
    (rest : List (List Char)) :
    placeFrom base (step :: rest) = placeFrom (base ++ [step]) rest := by
  rw [placeFrom, hvoid, if_neg (by decide), if_neg hup]

/-- Steps that stay lead to places below, all the way. -/
theorem le_placeFrom_of_staysFrom (base extra : Location)
    (hvoid : ∀ step ∈ moves, isVoid step = false) (h : staysFrom extra.length moves = true)
    {a : List (List Char)} (ha : a <+: moves) : base <+: placeFrom (base ++ extra) a := by
  induction moves generalizing extra a with
  | nil =>
    rw [List.prefix_nil.mp ha]
    exact List.prefix_append ..
  | cons step rest ih =>
    have hrest : ∀ x ∈ rest, isVoid x = false := fun x hx => hvoid x (by simp [hx])
    cases a with
    | nil => exact List.prefix_append ..
    | cons x a =>
      obtain ⟨rfl, hmore⟩ := List.cons_prefix_cons.mp ha
      unfold staysFrom at h
      split at h
      · rename_i hup
        subst hup
        rcases List.eq_nil_or_concat' extra with rfl | ⟨init, last, rfl⟩
        · cases h
        · rw [List.length_append] at h
          rw [placeFrom_up, ← List.append_assoc, List.dropLast_concat]
          exact ih init hrest h hmore
      · rename_i hup
        rw [placeFrom_down (hvoid x (by simp)) hup, List.append_assoc]
        refine ih _ hrest ?_ hmore
        rw [List.length_append]
        exact h

theorem mem_placeFrom {name : List Char} (h : name ∈ placeFrom base moves) :
    name ∈ base ∨ name ∈ moves := by
  induction moves generalizing base with
  | nil => exact Or.inl h
  | cons step rest ih =>
    unfold placeFrom at h
    split at h
    · exact (ih h).imp_right (List.mem_cons_of_mem _)
    · split at h
      · exact (ih h).imp List.mem_of_mem_dropLast (List.mem_cons_of_mem _)
      · rcases ih h with h | h
        · rcases List.mem_append.mp h with h | h
          · exact Or.inl h
          · exact Or.inr (List.mem_singleton.mp h ▸ List.mem_cons_self)
        · exact Or.inr (List.mem_cons_of_mem _ h)

/-- Steps that do not stay lead out of a folder whose name they do not know. -/
theorem not_le_placeFrom (extra : Location) {fresh : List Char}
    (hvoid : ∀ step ∈ moves, isVoid step = false) (hfresh : fresh ∉ moves)
    (h : staysFrom extra.length moves = false) :
    ¬ [fresh] <+: placeFrom ([fresh] ++ extra) moves := by
  induction moves generalizing extra with
  | nil => cases h
  | cons step rest ih =>
    have hrest : ∀ x ∈ rest, isVoid x = false := fun x hx => hvoid x (by simp [hx])
    have hfresh' : fresh ∉ rest := fun hin => hfresh (List.mem_cons_of_mem _ hin)
    unfold staysFrom at h
    split at h
    · rename_i hup
      subst hup
      rcases List.eq_nil_or_concat' extra with rfl | ⟨init, last, rfl⟩
      · -- Here the steps leave the folder, and they cannot come back to it.
        intro hbelow
        rw [List.append_nil, placeFrom_up] at hbelow
        rcases mem_placeFrom (hbelow.subset (List.mem_singleton_self fresh)) with hin | hin
        · cases hin
        · exact hfresh' hin
      · rw [List.length_append] at h
        rw [placeFrom_up, ← List.append_assoc, List.dropLast_concat]
        exact ih init hrest hfresh' h
    · rename_i hup
      rw [placeFrom_down (hvoid step (by simp)) hup, List.append_assoc]
      refine ih _ hrest hfresh' ?_
      rw [List.length_append]
      exact h

/-- A path that stays, appended to another, leads below it. -/
theorem Stays.onWay_join (h : q.Stays) {l : Location} (hl : (p.join q).OnWay l) :
    p.OnWay l ∨ p.place <+: l := by
  rcases (Path.onWay_join h.1).mp hl with hl | ⟨a, ha, rfl⟩
  · exact Or.inl hl
  · have hbelow := le_placeFrom_of_staysFrom p.place [] (fun _ => isVoid_of_mem_steps) h.2 ha
    rw [List.append_nil] at hbelow
    exact Or.inr hbelow

theorem IsName.steps {name : List Char} (h : IsName name) : (Path.mk name).steps = [name] := by
  simp [Path.steps, pieces_of_no_slash h.2.2.2, stepsOf, h.isVoid]

theorem IsName.stays {name : List Char} (h : IsName name) : (Path.mk name).Stays := by
  constructor
  · intro hhead
    exact h.2.2.2 (List.mem_of_mem_head? hhead)
  · simp [h.steps, staysFrom, h.2.2.1]

theorem length_le_of_mem_pieces {cs piece : List Char} (h : piece ∈ pieces cs) :
    piece.length ≤ cs.length := by
  induction cs generalizing piece with
  | nil =>
    rw [List.mem_singleton.mp h]
  | cons c cs ih =>
    unfold pieces at h
    obtain ⟨first, rest, hp⟩ := List.exists_cons_of_ne_nil (pieces_ne_nil cs)
    rw [hp] at h ih
    split at h
    · rcases List.mem_cons.mp h with rfl | h
      · exact Nat.zero_le _
      · exact (ih h).trans (Nat.le_succ _)
    · rcases List.mem_cons.mp h with rfl | h
      · exact Nat.succ_le_succ (ih List.mem_cons_self)
      · exact (ih (List.mem_cons_of_mem _ h)).trans (Nat.le_succ _)

/-- A name that a path does not know, since it is longer than the path. -/
def stranger (p : Path) : List Char := List.replicate (p.chars.length + 1) 'x'

theorem stranger_not_mem (p : Path) : p.stranger ∉ p.steps := by
  intro hin
  have hlength := length_le_of_mem_pieces (List.mem_filter.mp hin).1
  rw [stranger, List.length_replicate] at hlength
  omega

theorem isName_stranger (p : Path) : IsName p.stranger := by
  have hall : ∀ c ∈ p.stranger, c = 'x' := fun c hc => List.eq_of_mem_replicate hc
  have hfirst : 'x' ∈ p.stranger := by simp [stranger]
  refine ⟨List.ne_nil_of_mem hfirst, ?_, ?_, fun hslash => absurd (hall _ hslash) (by decide)⟩
  · intro heq
    rw [heq] at hfirst
    exact absurd hfirst (by decide)
  · intro heq
    rw [heq] at hfirst
    exact absurd hfirst (by decide)

theorem join_of_rooted (h : q.chars.head? = some '/') : p.join q = q := by
  obtain ⟨rest, hchars⟩ := List.head?_eq_some_iff.mp h
  unfold join
  split
  · rfl
  all_goals simp_all

/-- A path stays exactly if it leads below every folder that it is appended to. -/
theorem stays_iff : q.Stays ↔ ∀ p : Path, p.place <+: (p.join q).place := by
  constructor
  · intro h p
    have hbelow := le_placeFrom_of_staysFrom p.place [] (fun _ => isVoid_of_mem_steps) h.2
      List.prefix_rfl
    rwa [List.append_nil, ← place_join_of_relative h.1] at hbelow
  · intro h
    have hplace : (Path.mk q.stranger).place = [q.stranger] := by
      rw [place_eq, (isName_stranger q).steps, (isName_stranger q).placeFrom, List.nil_append]
    have hbelow := h ⟨q.stranger⟩
    rw [hplace] at hbelow
    have hrelative : q.chars.head? ≠ some '/' := by
      intro hhead
      rw [join_of_rooted hhead, place_eq] at hbelow
      rcases mem_placeFrom (hbelow.subset (List.mem_singleton_self _)) with hin | hin
      · cases hin
      · exact stranger_not_mem q hin
    refine ⟨hrelative, ?_⟩
    by_contra hleaves
    refine not_le_placeFrom [] (fun _ => isVoid_of_mem_steps) (stranger_not_mem q)
      (by simpa using hleaves) ?_
    rwa [List.append_nil, ← hplace, ← place_join_of_relative hrelative, hplace]

end Path

namespace Disk

variable {d c : Disk} {p q r : Path} {folder l : Location} {names : List (List Char)}

/-- Strictly inside a folder. -/
def Below (folder l : Location) : Prop := folder <+: l ∧ l ≠ folder

theorem below_append (h : folder <+: l) (hne : names ≠ []) : Below folder (l ++ names) := by
  refine ⟨h.trans (List.prefix_append ..), fun heq => ?_⟩
  have hlength := congrArg List.length heq
  rw [List.length_append] at hlength
  have hpos := List.length_pos_of_ne_nil hne
  have hle := h.length_le
  omega

/-- All changes from one disk to another are inside a folder, but for folders that were missing on
the way to it. -/
def WritesBelow (p : Path) (d d' : Disk) : Prop :=
  ∀ l, d'.entryAt? l = d.entryAt? l ∨ Below p.place l ∨
    (p.OnWay l ∧ d.entryAt? l = none ∧ d'.entryAt? l = some .folder)

/-- A path that goes along the way of another and from its end on stays inside. -/
structure Inside (p q : Path) : Prop where
  way : ∀ l, q.OnWay l → p.OnWay l ∨ Below p.place l
  place : p.place <+: q.place

namespace Inside

theorem refl (p : Path) : Inside p p := ⟨fun _ hl => Or.inl hl, List.prefix_rfl⟩

theorem join (h : Inside p q) (hr : r.Stays) : Inside p (q.join r) := by
  refine ⟨fun l hl => ?_, h.place.trans (Path.stays_iff.mp hr q)⟩
  rcases hr.onWay_join hl with hl | hl
  · exact h.way l hl
  · by_cases heq : l = p.place
    · exact Or.inl (heq ▸ Path.onWay_place p)
    · exact Or.inr ⟨h.place.trans hl, heq⟩

theorem child (h : Inside p q) {text : String} (htext : Path.IsName text.toList) :
    Inside p (q.child text) := h.join htext.stays

theorem descend (h : Inside p q) (hnames : ∀ name ∈ names, Path.IsName name) :
    Inside p (descend q names) := by
  induction names generalizing q with
  | nil => exact h
  | cons name names ih =>
    exact ih (h.join (hnames name (by simp)).stays) fun x hx => hnames x (by simp [hx])

end Inside

/-- Edits by paths that stay inside write inside only. -/
theorem lasting_writesBelow (p : Path) (d : Disk) :
    Lasting (fun c => c.IsDirectory ∧ WritesBelow p d c)
      (fun q => ∀ l, q.OnWay l → p.OnWay l ∨ Below p.place l) (Below p.place) where
  isDirectory c hc := hc.1
  parent q r hq hparent l hl := hq l ((Path.onWay_iff_of_parent hparent).mpr (Or.inl hl))
  folder c q loc name hc hq _ hplace hspot hnone := by
    refine ⟨hc.1.put hspot (Or.inl rfl), fun l => ?_⟩
    rw [entryAt?_put (by simp)]
    split
    · rename_i heq
      rcases hq l (heq ▸ hplace ▸ Path.onWay_place q) with hway | hbelow
      · rcases hc.2 l with hsame | hbelow | ⟨-, -, hfolder⟩
        · exact Or.inr (Or.inr ⟨hway, by rw [← hsame, heq, hnone], rfl⟩)
        · exact Or.inr (Or.inl hbelow)
        · rw [heq, hnone] at hfolder
          cases hfolder
      · exact Or.inr (Or.inl hbelow)
    · exact hc.2 l
  file c loc name bytes hc hbelow hspot hfree := by
    refine ⟨hc.1.put hspot (Or.inr hfree), fun l => ?_⟩
    rw [entryAt?_put (by simp)]
    split
    · rename_i heq
      exact Or.inr (Or.inl (heq ▸ hbelow))
    · exact hc.2 l

theorem Inside.saveText (h : Inside p q) {name : String} (hname : Path.IsName name.toList)
    (text : String) : Keeps (fun c => c.IsDirectory ∧ WritesBelow p d c)
      (fun c => c.IsDirectory ∧ WritesBelow p d c) (saveText (q.child name) text) := by
  refine (lasting_writesBelow p d).saveText (fun r hparent l hl => ?_) ?_ text
  · exact (h.child hname).way l ((Path.onWay_iff_of_parent hparent).mpr (Or.inl hl))
  · rw [Path.place_child hname]
    exact below_append h.place (by simp)

theorem Inside.copyFolder (h : Inside p q) {name : String} (hname : Path.IsName name.toList)
    (source : Path) : Keeps (fun c => c.IsDirectory ∧ WritesBelow p d c)
      (fun c => c.IsDirectory ∧ WritesBelow p d c) (copyFolder source (q.child name)) := by
  have hempty : Path.empty.Stays := by decide
  refine (lasting_writesBelow p d).copyFolder (fun names hnames => ?_) fun _ names _ _ _ _ => ?_
  · exact (((h.child hname).join hempty).descend hnames).way
  · rw [Path.place_child hname, List.append_assoc]
    exact below_append h.place (by simp)

end Disk

open Disk (Below WritesBelow Inside)

namespace Workspace

variable {code : Path} {name : String}

/-- The files of a module lie in folders that are inside the folder of the code, if its name
stays. -/
theorem inside_of_mem_moduleFiles (h : (Path.ofString name).Stays) {file : Path}
    (hfile : file ∈ moduleFiles code name) :
    ∃ folder text, file = folder.child text ∧ Inside code folder ∧ Path.IsName text.toList := by
  have hmodule : Inside code (code.child name) := (Inside.refl code).join h
  simp only [moduleFiles, List.mem_cons, List.not_mem_nil, or_false] at hfile
  rcases hfile with rfl | rfl | rfl
  · exact ⟨_, "code.h", rfl, hmodule.child (by decide), by decide⟩
  · exact ⟨_, "code.cpp", rfl, hmodule.child (by decide), by decide⟩
  · exact ⟨_, Descriptor.fileName, rfl, hmodule, by decide⟩

theorem savesKeep_writesBelow (h : (Path.ofString name).Stays) (d : Disk) :
    SavesKeep (fun c => c.IsDirectory ∧ WritesBelow code d c) code name := by
  intro file hfile text
  obtain ⟨folder, last, rfl, hinside, hlast⟩ := inside_of_mem_moduleFiles h hfile
  exact hinside.saveText hlast text

end Workspace

namespace Pipeline

/-- What is written for a module of the name lies inside the output folders. -/
structure Contained (c : Config) (name : String) : Prop where
  files : ∀ file ∈ Workspace.moduleFiles c.code name, Below c.code.place file.place
  artifacts : Below c.binaries.place (artifactFolder c name).place

theorem contained_iff_stays (name : String) :
    (∀ c, Contained c name) ↔ (Path.ofString name).Stays := by
  constructor
  · intro h
    refine Path.stays_iff.mpr fun p => ?_
    -- A configuration in which the folder of the binaries is the given one.
    obtain ⟨hbelow, hne⟩ := (h ⟨p, p, defaultBuildMode⟩).artifacts
    rw [artifactFolder, Path.place_child (by decide)] at hbelow hne
    rcases List.prefix_concat_iff.mp hbelow with heq | hbelow
    · exact absurd heq.symm hne
    · exact hbelow
  · intro h c
    refine ⟨fun file hfile => ?_, ?_⟩
    · obtain ⟨folder, last, rfl, hinside, hlast⟩ := Workspace.inside_of_mem_moduleFiles h hfile
      rw [Path.place_child hlast]
      exact Disk.below_append hinside.place (by simp)
    · rw [artifactFolder, Path.place_child (by decide)]
      exact Disk.below_append ((Inside.refl c.binaries).join h).place (by simp)

/-- What is written for a module lies inside the output folders, in every configuration, exactly if
its name stays. If the names of all modules stay, generating code and descriptors changes nothing
but what is inside the folder of the code, and copying the binaries of a module nothing but what is
inside theirs, apart from folders that were missing on the way there. The names count as the
spelled tree has them, which are those of the tree itself where nobody observes the spellings. -/
theorem writes_contained_iff_stays (name : String) (c : Config) (w : Workspace) (p : Pipeline) :
    ((∀ c, Contained c name) ↔ (Path.ofString name).Stays) ∧
    (w.disk.IsDirectory →
      (∀ name, (left (Workspace.generateCode w)).ast.store.HasModuleNamed name →
        (Path.ofString name).Stays) →
      WritesBelow w.compilation.config.code w.disk (left (Workspace.generateCode w)).disk) ∧
    (w.ast.Ready → ∀ name, (left (Workspace.generateCode w)).ast.store.HasModuleNamed name →
      w.ast.store.HasModuleNamed name) ∧
    (w.disk.IsDirectory →
      (∀ name, w.ast.store.HasModuleNamed name → (Path.ofString name).Stays) →
      WritesBelow w.compilation.config.code w.disk
        (left (Workspace.generateDescriptors w)).disk) ∧
    (p.workspace.disk.IsDirectory → (Path.ofString name).Stays →
      WritesBelow c.binaries p.workspace.disk (left (copyModule c name p)).workspace.disk) := by
  have hstart : ∀ p d, WritesBelow p d d := fun p d l => Or.inl rfl
  refine ⟨contained_iff_stays name, fun hd hnames => ?_,
    fun hready _ hname => Workspace.names_generateCode hready hname, fun hd hnames => ?_,
    fun hd hname => ?_⟩
  · exact (Workspace.generateCode_holding ⟨hd, hstart _ _⟩ fun name hname =>
      Workspace.savesKeep_writesBelow (hnames name hname) w.disk).disk.2
  · have hkept := @Workspace.Holding.generateDescriptors _ w.ast w.compilation.config
      (fun text => (Inside.refl _).saveText (by decide) text)
      fun name hname => Workspace.savesKeep_writesBelow (hnames name hname) w.disk
    exact (hkept.left ⟨rfl, rfl, hd, hstart _ _⟩).disk.2
  · have hbin : Path.IsName "Bin".toList := by decide
    have hcopy := ((Inside.refl c.binaries).join hname).copyFolder (d := p.workspace.disk) hbin
      (builtFolder c name)
    have hkept := @Holding.copyModule _ p.workspace.ast p.config p.state c name hcopy
    exact (hkept.left ⟨⟨rfl, rfl, hd, hstart _ _⟩, rfl⟩).disk.2

/-- A program and a library whose name takes a detour. -/
def roundabout : Workspace := Workspace.neighbours "Core/../Lib"

/-- The library has been built. -/
def roundaboutBuilt : Pipeline :=
  .new roundabout.ast
    ⟨[(["P".toList], .folder),
      (["P".toList, "Intermediates".toList], .folder),
      (["P".toList, "Intermediates".toList, "CMake".toList], .folder),
      (["P".toList, "Intermediates".toList, "CMake".toList, "Core".toList], .folder),
      (["P".toList, "Intermediates".toList, "CMake".toList, "Lib".toList], .folder),
      (["P".toList, "Intermediates".toList, "CMake".toList, "Lib".toList, "Release".toList],
        .folder),
      (["P".toList, "Intermediates".toList, "CMake".toList, "Lib".toList, "Release".toList,
        "Lib.a".toList], .file "".toUTF8)]⟩
    roundabout.compilation.config .standard

/-- A name may climb, as long as it does not climb above where it starts. -/
theorem writes_contained_iff_stays_roundabout :
    roundabout.disk.IsDirectory ∧ (∀ c, Contained c "Core/../Lib") ∧
    (left (Workspace.generateCode roundabout)).compilation.diagnostics = [] ∧
    WritesBelow roundabout.compilation.config.code roundabout.disk
      (left (Workspace.generateCode roundabout)).disk ∧
    WritesBelow roundabout.compilation.config.code roundabout.disk
      (left (Workspace.generateDescriptors roundabout)).disk ∧
    (left (copyModule roundaboutBuilt.config "Core/../Lib" roundaboutBuilt)).workspace.disk.isFile
      (.ofString "P/Binaries/Lib/Bin/Lib.a") = true ∧
    WritesBelow roundaboutBuilt.config.binaries roundaboutBuilt.workspace.disk
      (left (copyModule roundaboutBuilt.config "Core/../Lib" roundaboutBuilt)).workspace.disk := by
  have hempty : roundabout.disk.IsDirectory :=
    ⟨List.Pairwise.nil, fun _ => nofun, fun _ => nofun, fun _ => nofun⟩
  have hstays : ∀ s : Store, s.modules = .ok [⟨0, 0⟩, ⟨1, 0⟩] → s.moduleName ⟨0, 0⟩ = .ok "App" →
      s.moduleName ⟨1, 0⟩ = .ok "Core/../Lib" →
      ∀ name, s.HasModuleNamed name → (Path.ofString name).Stays := by
    rintro s hmodules hfirst hsecond name ⟨ids, hids, id, hid, hname⟩
    obtain rfl := Except.ok.inj (hmodules.symm.trans hids)
    rcases (by simpa using hid : id = ⟨0, 0⟩ ∨ id = ⟨1, 0⟩) with rfl | rfl
    · obtain rfl := Except.ok.inj (hfirst.symm.trans hname)
      decide
    · obtain rfl := Except.ok.inj (hsecond.symm.trans hname)
      decide
  obtain ⟨hcontained, hcode, -, hdescriptors, hcopy⟩ := writes_contained_iff_stays "Core/../Lib"
    roundaboutBuilt.config roundabout roundaboutBuilt
  refine ⟨hempty, hcontained.mpr (by decide), by decide +kernel,
    hcode hempty (hstays _ ?_ ?_ ?_), hdescriptors hempty (hstays _ ?_ ?_ ?_), by decide +kernel,
    hcopy ⟨by decide +kernel, by decide +kernel, by decide +kernel, by decide +kernel⟩ (by decide)⟩
  all_goals decide +kernel

/-- A program whose name climbs out of the folder of the code. -/
def straying : Workspace where
  ast := Ast.reached [.create, .insert .module ⟨0, 0⟩ .executable,
    .insert .identifier ⟨0, 0⟩ "../../Out"]
  disk := .empty
  compilation := .new (.ofProject (.ofString "P"))

/-- The code of a module whose name climbs is written next to the output folders, and nothing is
reported. -/
theorem stray_code_written :
    ¬ (Path.ofString "../../Out").Stays ∧
    ∃ v, Workspace.generateCode straying = .ok () v ∧ v.compilation.diagnostics = [] ∧
      straying.disk.isFile (.ofString "P/Out/Include/code.h") = false ∧
      v.disk.isFile (.ofString "P/Out/Include/code.h") = true ∧
      ¬ straying.compilation.config.code.place <+:
        (Path.ofString "P/Out/Include/code.h").place := by
  exact ⟨by decide, left (Workspace.generateCode straying), eq_ok_left (by decide +kernel),
    by decide +kernel, by decide +kernel, by decide +kernel, by decide +kernel⟩

end Pipeline

end ModuleCompiler
