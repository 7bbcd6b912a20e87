import ModuleCompiler.Proofs.Outputs

/-!
The build descriptors, all or none. They are written for a project whose modules have names that
targets may have. Otherwise what is wrong is reported and the disk stays as it is; the report goes
through the modules in order and judges each by the names before it, so a third module of one name
is reported like the second. Once writing has begun no failure keeps a later descriptor from being
attempted.
-/

namespace ModuleCompiler

section Names

variable {seen : List String} {units : List (Entity × String)}

/-- What is wrong with the name of a module, given the modules before it. Modules without a name do
not count as repetitions of each other. -/
def nameProblem? (earlier : List (Entity × String)) (x : Entity × String) : Option Diagnostic :=
  if x.2 = "" then some (.namelessModule x.1)
  else if x.2 ∈ earlier.map Prod.snd then some (.duplicateModule x.2)
  else none

/-- What is wrong with the names of modules, in order, each judged by the ones before it. -/
def namingProblems (units : List (Entity × String)) : List Diagnostic :=
  units.zipIdx.filterMap fun (x, i) => nameProblem? (units.take i) x

/-- None of the names is empty, and no two are equal. -/
def FitNames (units : List (Entity × String)) : Prop :=
  (∀ x ∈ units, x.2 ≠ "") ∧ (units.map Prod.snd).Nodup

instance (units : List (Entity × String)) : Decidable (FitNames units) :=
  inferInstanceAs (Decidable ((∀ x ∈ units, x.2 ≠ "") ∧ (units.map Prod.snd).Nodup))

/-- By induction on the modules that are still to come. The names seen are those of the modules
before them; whether the empty name is among them makes no difference. -/
theorem nameProblems_eq_filterMap (earlier : List (Entity × String))
    (hseen : ∀ name, name ≠ "" → (name ∈ seen ↔ name ∈ earlier.map Prod.snd)) :
    Workspace.nameProblems seen units = (units.zipIdx earlier.length).filterMap fun (x, i) =>
      nameProblem? ((earlier ++ units).take i) x := by
  induction units generalizing seen earlier with
  | nil => rfl
  | cons x rest ih =>
    obtain ⟨id, name⟩ := x
    have hrest : ∀ seen' : List String,
        (∀ other, other ≠ "" → (other ∈ seen' ↔ other ∈ earlier.map Prod.snd ∨ other = name)) →
        Workspace.nameProblems seen' rest =
          (rest.zipIdx (earlier.length + 1)).filterMap fun (x, i) =>
            nameProblem? ((earlier ++ (id, name) :: rest).take i) x := by
      intro seen' hseen'
      have hextended : ∀ other, other ≠ "" →
          (other ∈ seen' ↔ other ∈ (earlier ++ [(id, name)]).map Prod.snd) := by
        simpa using hseen'
      simpa using ih (earlier ++ [(id, name)]) hextended
    rw [List.zipIdx_cons, List.filterMap_cons]
    dsimp only
    rw [List.take_left, Workspace.nameProblems, nameProblem?]
    by_cases hname : name = ""
    · rw [if_pos hname, if_pos hname, hrest seen fun other hother => ?_]
      simp [hseen other hother, hname, hother]
    · rw [if_neg hname, if_neg hname]
      by_cases hdup : name ∈ seen
      · rw [if_pos hdup, if_pos ((hseen name hname).mp hdup), hrest seen fun other hother => ?_]
        rw [hseen other hother, or_iff_left_of_imp]
        rintro rfl
        exact (hseen other hother).mp hdup
      · rw [if_neg hdup, if_neg (hdup ∘ (hseen name hname).mpr)]
        refine hrest (name :: seen) fun other hother => ?_
        rw [List.mem_cons, hseen other hother, or_comm]

theorem nameProblems_eq (units : List (Entity × String)) :
    Workspace.nameProblems [] units = namingProblems units :=
  nameProblems_eq_filterMap [] fun _ _ => Iff.rfl

theorem namingProblems_eq_nil_iff : namingProblems units = [] ↔ FitNames units := by
  rw [← nameProblems_eq, Workspace.nameProblems_eq_nil_iff]
  constructor
  · exact fun h => ⟨fun x hx => (h.2 x hx).1, h.1⟩
  · exact fun h => ⟨h.2, fun x hx => ⟨h.1 x hx, List.not_mem_nil⟩⟩

end Names

/-- The descriptor of the project: after its head it lists the modules, one on a line. -/
def rootSaving (folder : Path) (project : String) (names : List String) : Saving where
  file := Workspace.rootDescriptorFile folder
  text := unlines (["cmake_minimum_required (VERSION 3.12)",
    s!"project({project} VERSION 0.1 LANGUAGES CXX)", ""] ++
      names.map fun name => s!"add_subdirectory({name})")
  reason := .descriptorNotSaved

theorem rootSaving_eq (folder : Path) (project : String) (names : List String) :
    rootSaving folder project names = ⟨Workspace.rootDescriptorFile folder,
      Descriptor.root project names, .descriptorNotSaved⟩ := by
  rw [Descriptor.root_eq]
  rfl

namespace Workspace

variable {w : Workspace}

/-- Descriptors are written only for a project, and only if no module is without a name and no two
have the same one. Otherwise the disk stays as it is, and what is reported is that there is no
project, or else, in the order of the modules, each that has no name and each that has the name of
an earlier one. If all is well the descriptor of the project, which lists the names once and in
order, is attempted first and then one for each module; every failure is reported, and none keeps
the next from being attempted. -/
theorem descriptors_all_or_none (h : w.ast.store.Consistent) :
    ∃ v project modules units, generateDescriptors w = .ok () v ∧
      w.ast.store.projectModule = .ok project ∧ w.ast.store.modules = .ok modules ∧
      mapChecked (fun id => do return (id, ← w.ast.store.moduleName id)) modules = .ok units ∧
      (project = none → v = w.leaving w.disk [.nothingToDescribe]) ∧
      ∀ p, project = some p →
        (¬ FitNames units → v = w.leaving w.disk (namingProblems units)) ∧
        (FitNames units → ∃ name files, w.ast.store.moduleName p = .ok name ∧
          mapChecked (w.ast.store.descriptorSaving w.compilation.config.code) units = .ok files ∧
          Attempts (rootSaving w.compilation.config.code name (units.map Prod.snd) :: files)
            w v) := by
  have hmodules := h.sound.modules_run
  have hunits := Store.namedModules_run w.ast.store
  have hfound := h.anchored.projectModule_run
  cases hproject : w.ast.store.projectOf with
  | none =>
    rw [hproject] at hfound
    refine ⟨_, none, _, _, generateDescriptors_without_project h hproject, hfound, hmodules,
      hunits, fun _ => rfl, fun p hp => ?_⟩
    cases hp
  | some project =>
    rw [hproject] at hfound
    have hrun := generateDescriptors_of_project h hproject
    rw [nameProblems_eq] at hrun
    by_cases hfit : FitNames w.ast.store.namedModules
    · rw [if_pos (namingProblems_eq_nil_iff.mpr hfit)] at hrun
      obtain ⟨files, hfiles⟩ := h.sound.exists_descriptorSavings w.compilation.config.code
      obtain ⟨_, v, hwritten, hv⟩ := writeDescriptors_attempts hfiles (w.ast.store.nameOf project)
      rw [← rootSaving_eq] at hv
      refine ⟨v, some project, _, _, hrun.trans hwritten, hfound, hmodules, hunits, ?_, ?_⟩
      · intro hnone
        cases hnone
      · intro p hp
        obtain rfl := Option.some.inj hp
        have hin := Store.mem_moduleList_of_projectOf hproject
        exact ⟨fun hunfit => absurd hfit hunfit, fun _ => ⟨_, files,
          Store.moduleName_run (Store.isValid_of_mem_moduleList hin), hfiles, hv⟩⟩
    · rw [if_neg (mt namingProblems_eq_nil_iff.mp hfit)] at hrun
      refine ⟨_, some project, _, _, hrun, hfound, hmodules, hunits, ?_,
        fun p _ => ⟨fun _ => rfl, ?_⟩⟩
      · intro hnone
        cases hnone
      · exact fun hfit' => absurd hfit' hfit

/-- Requests for modules with the given identifiers. -/
def modulesNamed (names : List String) : List Request :=
  names.zipIdx.flatMap fun (name, i) =>
    [.create, .insert .module ⟨i, 0⟩ .staticLibrary, .insert .identifier ⟨i, 0⟩ name]

/-- Two of the modules have no name, and two repeat one. -/
def crowded : Workspace where
  ast := Ast.reached (modulesNamed ["App", "", "Lib", "Lib", "", "Lib"])
  disk := .empty
  compilation := .new (.ofProject (.ofString "P"))

/-- The names of the modules are fit, but there is a file in the place of a module's folder. -/
def obstructed : Workspace where
  ast := Ast.reached (modulesNamed ["App", "Lib", "Core"])
  disk := left (Disk.saveText (.ofString "P/Intermediates/Code/Lib") "" .empty)
  compilation := .new (.ofProject (.ofString "P"))

theorem descriptors_all_or_none_cases :
    Ast.carriedOut (modulesNamed ["App", "", "Lib", "Lib", "", "Lib"]) = true ∧
    generateDescriptors crowded = .ok () (crowded.leaving crowded.disk
      [.namelessModule ⟨1, 0⟩, .duplicateModule "Lib", .namelessModule ⟨4, 0⟩,
        .duplicateModule "Lib"]) ∧
    Ast.carriedOut (modulesNamed ["App", "Lib", "Core"]) = true ∧
    ∃ v files, generateDescriptors obstructed = .ok () v ∧
      Attempts (rootSaving obstructed.compilation.config.code "App" ["App", "Lib", "Core"] :: files)
        obstructed v ∧
      v.compilation.diagnostics = [.descriptorNotSaved
        (.ofString "P/Intermediates/Code/Lib/CMakeLists.txt") .alreadyExists] ∧
      v.disk.isFile (.ofString "P/Intermediates/Code/Core/CMakeLists.txt") = true := by
  have hcrowd : Ast.carriedOut (modulesNamed ["App", "", "Lib", "Lib", "", "Lib"]) = true := by
    decide +kernel
  have hfew : Ast.carriedOut (modulesNamed ["App", "Lib", "Core"]) = true := by decide +kernel
  refine ⟨hcrowd, ?_, hfew, ?_⟩
  · obtain ⟨v, project, modules, units, hrun, hproject, hmodules, hunits, -, hunfit⟩ :=
      descriptors_all_or_none (w := crowded) (Store.consistent_carriedOut hcrowd)
    have hfound : crowded.ast.store.projectModule = .ok (some ⟨0, 0⟩) := by decide +kernel
    have hlisted : crowded.ast.store.modules =
        .ok [⟨0, 0⟩, ⟨1, 0⟩, ⟨2, 0⟩, ⟨3, 0⟩, ⟨4, 0⟩, ⟨5, 0⟩] := by decide +kernel
    obtain rfl := Except.ok.inj (hlisted.symm.trans hmodules)
    have hnamed : mapChecked (fun id => do return (id, ← crowded.ast.store.moduleName id))
        [⟨0, 0⟩, ⟨1, 0⟩, ⟨2, 0⟩, ⟨3, 0⟩, ⟨4, 0⟩, ⟨5, 0⟩] =
          .ok [(⟨0, 0⟩, "App"), (⟨1, 0⟩, ""), (⟨2, 0⟩, "Lib"), (⟨3, 0⟩, "Lib"), (⟨4, 0⟩, ""),
            (⟨5, 0⟩, "Lib")] := by decide +kernel
    obtain rfl := Except.ok.inj (hnamed.symm.trans hunits)
    have hv := (hunfit ⟨0, 0⟩ (Except.ok.inj (hproject.symm.trans hfound))).1 (by decide)
    rw [hrun, hv]
    rfl
  · obtain ⟨v, project, modules, units, hrun, hproject, hmodules, hunits, -, hfit⟩ :=
      descriptors_all_or_none (w := obstructed) (Store.consistent_carriedOut hfew)
    have hfound : obstructed.ast.store.projectModule = .ok (some ⟨0, 0⟩) := by decide +kernel
    have hname : obstructed.ast.store.moduleName ⟨0, 0⟩ = .ok "App" := by decide +kernel
    have hlisted : obstructed.ast.store.modules = .ok [⟨0, 0⟩, ⟨1, 0⟩, ⟨2, 0⟩] := by decide +kernel
    obtain rfl := Except.ok.inj (hlisted.symm.trans hmodules)
    have hnamed : mapChecked (fun id => do return (id, ← obstructed.ast.store.moduleName id))
        [⟨0, 0⟩, ⟨1, 0⟩, ⟨2, 0⟩] = .ok [(⟨0, 0⟩, "App"), (⟨1, 0⟩, "Lib"), (⟨2, 0⟩, "Core")] := by
      decide +kernel
    obtain rfl := Except.ok.inj (hnamed.symm.trans hunits)
    obtain ⟨name, files, hname', -, hattempts⟩ :=
      (hfit ⟨0, 0⟩ (Except.ok.inj (hproject.symm.trans hfound))).2 (by decide)
    obtain rfl := Except.ok.inj (hname.symm.trans hname')
    have hleft : generateDescriptors obstructed = .ok () (left (generateDescriptors obstructed)) :=
      eq_ok_left (by decide +kernel)
    obtain ⟨-, rfl⟩ := EStateM.Result.ok.inj (hrun.symm.trans hleft)
    exact ⟨_, files, hrun, hattempts, by decide +kernel, by decide +kernel⟩

end Workspace

end ModuleCompiler
