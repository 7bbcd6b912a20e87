import Mathlib.Data.List.Nodup
import ModuleCompiler.Proofs.Disk
import ModuleCompiler.Proofs.Saving

/-!
What a generation leaves in its files. When nothing is reported, every file was written once for
each module it was meant for; what it holds in the end depends only on which files share a place.
Names of modules are compared as texts, so two of them may still lead to one folder. Main statement:
every module has its own files exactly when the folders of the modules and the folder of the code
are all different places.
-/

namespace ModuleCompiler

namespace Descriptor

/-- What stands before the name in the line of a target. -/
def opening : ModuleTarget → String
  | .executable => "add_executable("
  | .sharedLibrary => "add_library("
  | .staticLibrary => "add_library("

/-- What stands after it. -/
def closing : ModuleTarget → String
  | .executable => ")"
  | .sharedLibrary => " SHARED)"
  | .staticLibrary => " STATIC)"

/-- The lines of a module's descriptor after that of its target. -/
def settings (name : String) : List String :=
  [s!"set_target_properties ({name} PROPERTIES CXX_STANDARD 20)",
    s!"set_target_properties ({name} PROPERTIES"] ++
  ["RUNTIME", "LIBRARY", "ARCHIVE"].map (fun kind => Writer.margin 1 ++ outputLine kind) ++
  [")", s!"target_include_directories({name} PUBLIC Include)",
    s!"target_sources({name} PRIVATE Src/code.cpp)"]

theorem targetLine_eq (name : String) (target : ModuleTarget) :
    targetLine name target = opening target ++ (name ++ closing target) := by
  cases target <;> exact String.append_assoc ..

theorem module_eq (name : String) (target : ModuleTarget) :
    Descriptor.module name target = .ok (unlines (targetLine name target :: settings name)) := by
  have hempty : Writer.empty = .ofLines 0 [] := rfl
  simp only [Descriptor.module, hempty, Writer.line_ofLines, Writer.indent_ofLines,
    Writer.lines_ofLines, Writer.dedent_ofLines, Writer.margin_zero_append, bind, Except.bind, pure,
    Except.pure]
  rfl

theorem length_settings (name : String) :
    (unlines (settings name)).length = 4 * name.length + (unlines (settings "")).length := by
  simp only [settings, List.cons_append, List.nil_append, List.map_cons, List.map_nil, unlines,
    String.length_append, toString, String.length_empty]
  omega

/-- The text of a module's descriptor, cut where the name of the target stands. -/
theorem toList_of_module {name : String} {target : ModuleTarget} {text : String}
    (h : Descriptor.module name target = .ok text) :
    ∃ rest, text.toList = (opening target).toList ++ (name.toList ++ rest) ∧
      text.length = 5 * name.length + (opening target).length + (closing target).length +
        (unlines (settings "")).length + 1 := by
  rw [module_eq] at h
  obtain rfl := Except.ok.inj h
  refine ⟨(closing target ++ "\n" ++ unlines (settings name)).toList, ?_, ?_⟩
  · simp only [unlines, targetLine_eq, String.toList_append, List.append_assoc]
  · have hnewline : "\n".length = 1 := rfl
    have hsettings := length_settings name
    simp only [unlines, targetLine_eq, String.length_append, hnewline]
    omega

/-- Programs and libraries differ in the fifth character. -/
theorem fifth_opening (target : ModuleTarget) (rest : List Char) :
    ((opening target).toList ++ rest)[4]? = some (if target = .executable then 'e' else 'l') := by
  cases target <;> rfl

theorem opening_eq {t u : ModuleTarget} (h : t = .executable ↔ u = .executable) :
    opening t = opening u ∧ (closing t).length = (closing u).length := by
  revert h
  cases t <;> cases u <;> decide

/-- A descriptor tells which module it is for, whatever characters the name has. -/
theorem module_injective {m n : String} {t u : ModuleTarget} {text : String}
    (hm : Descriptor.module m t = .ok text) (hn : Descriptor.module n u = .ok text) : m = n := by
  obtain ⟨rest, htext, hlength⟩ := toList_of_module hm
  obtain ⟨rest', htext', hlength'⟩ := toList_of_module hn
  have htargets : t = .executable ↔ u = .executable := by
    have hfifth := congrArg (fun l => l[4]?) (htext.symm.trans htext')
    simp only [fifth_opening, Option.some.injEq] at hfifth
    by_cases ht : t = .executable <;> by_cases hu : u = .executable <;> simp_all
  obtain ⟨hopening, hclosing⟩ := opening_eq htargets
  have hnames : m.toList.length = n.toList.length := by
    rw [String.length_toList, String.length_toList]
    rw [hopening, hclosing] at hlength
    omega
  rw [htext, hopening] at htext'
  exact String.toList_inj.mp (List.append_inj (List.append_cancel_left htext') hnames).1

theorem root_eq (project : String) (names : List String) :
    Descriptor.root project names =
      unlines ("cmake_minimum_required (VERSION 3.12)" ::
        s!"project({project} VERSION 0.1 LANGUAGES CXX)" :: "" ::
          names.map fun name => s!"add_subdirectory({name})") := by
  have hempty : Writer.empty = .ofLines 0 [] := rfl
  simp only [Descriptor.root, hempty, Writer.line_ofLines, Writer.blank_ofLines,
    Writer.lines_ofLines, Writer.margin_zero_append, List.nil_append, List.cons_append,
    List.map_map, Function.comp_def]
  rfl

theorem head_root (project : String) (names : List String) :
    (Descriptor.root project names).toList.head? = some 'c' := by
  rw [root_eq, unlines, String.toList_append, String.toList_append, List.append_assoc,
    List.head?_append]
  rfl

theorem module_ne_root {name project text : String} {target : ModuleTarget} {names : List String}
    (h : Descriptor.module name target = .ok text) : text ≠ Descriptor.root project names := by
  rintro rfl
  obtain ⟨rest, htext, -⟩ := toList_of_module h
  have hhead := head_root project names
  rw [htext] at hhead
  cases target <;> cases hhead

end Descriptor

theorem Attempted.saveAll {files : List Saving} {d after : Disk} (h : Attempted files d [] after) :
    Disk.saveAll (files.map fun x => (x.file, x.text)) d = .ok () after := by
  generalize hnone : ([] : List Diagnostic) = reports at h
  induction h with
  | done _ => rfl
  | saved hsave _ ih => exact (bind_run_ok hsave).trans (ih hnone)
  | failed => cases hnone

namespace Workspace

variable {w v u : Workspace}

/-- Attempts of which nothing is reported have saved the files, one after the other. -/
theorem Attempts.saveAll {files : List Saving} (h : Attempts files w v)
    (hquiet : v.compilation.diagnostics = w.compilation.diagnostics) :
    Disk.saveAll (files.map fun x => (x.file, x.text)) w.disk = .ok () v.disk := by
  obtain ⟨reports, d, hfiles, rfl⟩ := h
  obtain rfl : reports = [] := by simpa [leaving] using hquiet
  exact hfiles.saveAll

/-- What is generated for a module. -/
structure Output where
  module : Entity
  name : String
  code : ModuleCode
  descriptor : String

/-- The header, the source file and the descriptor of a module. -/
def Output.files (o : Output) (folder : Path) : List (Path × String) :=
  [(headerFile folder o.name, o.code.header), (sourceFile folder o.name, o.code.source),
    (moduleDescriptorFile folder o.name, o.descriptor)]

/-- What the first half of a generation saves for a module. -/
def Output.codeSavings (o : Output) (folder : Path) : List Saving :=
  [⟨headerFile folder o.name, o.code.header, .headerNotSaved⟩,
    ⟨sourceFile folder o.name, o.code.source, .sourceNotSaved⟩]

/-- What the second half saves for it. -/
def Output.descriptorSaving (o : Output) (folder : Path) : Saving :=
  ⟨moduleDescriptorFile folder o.name, o.descriptor, .descriptorNotSaved⟩

theorem Output.mem_files {o : Output} {folder : Path} {f : Path × String} :
    f ∈ o.files folder ↔ (∃ x ∈ o.codeSavings folder, f = (x.file, x.text)) ∨
      f = ((o.descriptorSaving folder).file, (o.descriptorSaving folder).text) := by
  simp [Output.files, Output.codeSavings, Output.descriptorSaving, or_assoc]

end Workspace

/-- What there is to generate for a module. -/
def Store.output (s : Store) (project id : Entity) : Except Fault Workspace.Output := do
  let name ← s.moduleName id
  let code ← s.moduleCode id (project = id)
  let target ← s.require .module id
  return ⟨id, name, code, ← Descriptor.module name target⟩

theorem Store.output_eq_ok {s : Store} {project id : Entity} {o : Workspace.Output} :
    s.output project id = .ok o ↔
      o.module = id ∧ s.moduleName id = .ok o.name ∧ s.moduleCode id (project = id) = .ok o.code ∧
        ∃ target, s.require .module id = .ok target ∧
          Descriptor.module o.name target = .ok o.descriptor := by
  constructor
  · intro h
    obtain ⟨name, hname, h⟩ := except_bind_eq_ok h
    obtain ⟨code, hcode, h⟩ := except_bind_eq_ok h
    obtain ⟨target, htarget, h⟩ := except_bind_eq_ok h
    obtain ⟨text, htext, h⟩ := except_bind_eq_ok h
    obtain rfl : (⟨id, name, code, text⟩ : Workspace.Output) = o := Except.ok.inj h
    exact ⟨rfl, hname, hcode, target, htarget, htext⟩
  · rintro ⟨rfl, hname, hcode, target, htarget, htext⟩
    simp only [Store.output, hname, hcode, htarget, htext, bind, Except.bind, pure, Except.pure]

theorem Store.codeSavings_eq_ok {s : Store} {folder : Path} {project : Option Entity} {id : Entity}
    {files : List Saving} (h : s.codeSavings folder project id = .ok files) :
    ∃ name code, s.moduleName id = .ok name ∧ s.moduleCode id (project = some id) = .ok code := by
  obtain ⟨name, hname, h⟩ := except_bind_eq_ok h
  obtain ⟨code, hcode, -⟩ := except_bind_eq_ok h
  exact ⟨name, code, hname, hcode⟩

theorem Store.descriptorSaving_eq_ok {s : Store} {folder : Path} {x : Entity × String}
    {file : Saving} (h : s.descriptorSaving folder x = .ok file) :
    ∃ target text, s.require .module x.1 = .ok target ∧
      Descriptor.module x.2 target = .ok text := by
  obtain ⟨target, htarget, h⟩ := except_bind_eq_ok h
  obtain ⟨text, htext, -⟩ := except_bind_eq_ok h
  exact ⟨target, text, htarget, htext⟩

theorem Store.savings_of_output {s : Store} {project id : Entity} {o : Workspace.Output}
    (h : s.output project id = .ok o) (folder : Path) :
    s.codeSavings folder (some project) id = .ok (o.codeSavings folder) ∧
      s.descriptorSaving folder (o.module, o.name) = .ok (o.descriptorSaving folder) := by
  obtain ⟨rfl, hname, hcode, target, htarget, htext⟩ := Store.output_eq_ok.mp h
  constructor
  · rw [codeSavings, hname]
    simp only [Option.some.injEq, hcode, bind, Except.bind]
    rfl
  · rw [descriptorSaving, htarget]
    simp only [htext, bind, Except.bind]
    rfl

namespace Workspace

variable {w v u : Workspace}

/-- The guard lets names through that are all different and none of them empty. -/
theorem nameProblems_eq_nil_iff {seen : List String} {units : List (Entity × String)} :
    nameProblems seen units = [] ↔
      (units.map Prod.snd).Nodup ∧ ∀ x ∈ units, x.2 ≠ "" ∧ x.2 ∉ seen := by
  induction units generalizing seen with
  | nil => simp [nameProblems]
  | cons x units ih =>
    obtain ⟨id, name⟩ := x
    rw [nameProblems]
    by_cases hname : name = ""
    · simp [hname]
    · by_cases hseen : name ∈ seen
      · simp [hname, hseen]
      · rw [if_neg hname, if_neg hseen, ih]
        constructor
        · rintro ⟨hnodup, hrest⟩
          refine ⟨List.nodup_cons.mpr ⟨fun hin => ?_, hnodup⟩, fun y hy => ?_⟩
          · obtain ⟨y, hy, heq⟩ := List.mem_map.mp hin
            exact (hrest y hy).2 (by simp [heq])
          · rcases List.mem_cons.mp hy with rfl | hy
            · exact ⟨hname, hseen⟩
            · exact ⟨(hrest y hy).1, fun hin => (hrest y hy).2 (by simp [hin])⟩
        · rintro ⟨hnodup, hall⟩
          obtain ⟨hout, hnodup⟩ := List.nodup_cons.mp hnodup
          refine ⟨hnodup, fun y hy => ⟨(hall y (by simp [hy])).1, ?_⟩⟩
          have hne : y.2 ≠ name := fun heq => hout (List.mem_map.mpr ⟨y, hy, heq⟩)
          simpa [hne] using (hall y (by simp [hy])).2

/-- Code that was generated is that of the modules of the tree with its spellings. -/
theorem of_generateCode {x : Unit} (h : generateCode w = .ok x v) :
    ∃ u project modules files, u.disk = w.disk ∧ u.compilation = w.compilation ∧
      u.ast.store.projectModule = .ok project ∧ u.ast.store.modules = .ok modules ∧
      mapChecked (u.ast.store.codeSavings w.compilation.config.code project) modules = .ok files ∧
      Attempts files.flatten u v := by
  rw [generateCode_eq] at h
  obtain ⟨_, t, hprimitives, h⟩ := bind_eq_ok h
  obtain ⟨_, u, hparameters, h⟩ := bind_eq_ok h
  obtain ⟨hdisk, hcomp⟩ := disk_ofAst Ast.spellPrimitives w
  obtain ⟨hdisk', hcomp'⟩ := disk_ofAst Ast.spellParameters t
  rw [hprimitives] at hdisk hcomp
  rw [hparameters] at hdisk' hcomp'
  have hsame : u.compilation = w.compilation := hcomp'.trans hcomp
  obtain ⟨project, hproject, h⟩ := ofRead_bind_eq_ok h
  obtain ⟨modules, hmodules, h⟩ := ofRead_bind_eq_ok h
  obtain ⟨all, hall, hattempts⟩ := (generateModules_follows ..).attempts h
  obtain ⟨files, hfiles, hflat⟩ := except_bind_eq_ok hall
  obtain rfl := Except.ok.inj hflat
  rw [hsame] at hfiles
  exact ⟨u, project, modules, files, hdisk'.trans hdisk, hsame, hproject, hmodules, hfiles,
    hattempts⟩

/-- Either something is wrong with the modules, and then that is reported and nothing is written, or
the descriptors are attempted. -/
theorem of_generateDescriptors {x : Unit} (h : generateDescriptors w = .ok x v) :
    (Filed w v ∧ v.compilation.diagnostics ≠ w.compilation.diagnostics) ∨
    ∃ project projectName modules units files,
      w.ast.store.projectModule = .ok (some project) ∧
      w.ast.store.moduleName project = .ok projectName ∧ w.ast.store.modules = .ok modules ∧
      mapChecked (fun id => do return (id, ← w.ast.store.moduleName id)) modules = .ok units ∧
      nameProblems [] units = [] ∧
      mapChecked (w.ast.store.descriptorSaving w.compilation.config.code) units = .ok files ∧
      Attempts (⟨rootDescriptorFile w.compilation.config.code,
        Descriptor.root projectName (units.map Prod.snd), .descriptorNotSaved⟩ :: files) w v := by
  obtain ⟨project, hproject, h⟩ := ofRead_bind_eq_ok h
  cases project with
  | none =>
    obtain ⟨-, rfl⟩ := EStateM.Result.ok.inj h
    refine Or.inl ⟨⟨⟨rfl, List.prefix_append ..⟩, rfl⟩, ?_⟩
    simp [Compilation.report]
  | some project =>
    obtain ⟨modules, hmodules, h⟩ := ofRead_bind_eq_ok h
    obtain ⟨units, hunits, h⟩ := ofRead_bind_eq_ok h
    dsimp only at h
    split at h
    · rename_i hproblems
      obtain ⟨projectName, hname, h⟩ := ofRead_bind_eq_ok h
      obtain ⟨all, hall, hattempts⟩ := (writeDescriptors_follows ..).attempts h
      obtain ⟨files, hfiles, hcons⟩ := except_bind_eq_ok hall
      obtain rfl := Except.ok.inj hcons
      exact Or.inr ⟨project, projectName, modules, units, files, hproject, hname, hmodules, hunits,
        List.isEmpty_iff.mp hproblems, hfiles, hattempts⟩
    · rename_i hproblems
      rw [forM_report_run] at h
      obtain ⟨-, rfl⟩ := EStateM.Result.ok.inj h
      refine Or.inl ⟨filed_leaving .., ?_⟩
      simpa [leaving] using hproblems

theorem units_eq {s : Store} {project : Entity} {modules : List Entity} {outputs : List Output}
    (h : mapChecked (s.output project) modules = .ok outputs) :
    mapChecked (fun id => do return (id, ← s.moduleName id)) modules =
      .ok (outputs.map fun o => (o.module, o.name)) := by
  refine mapChecked_comp h fun id _ o ho => ?_
  obtain ⟨hmodule, hname, -⟩ := Store.output_eq_ok.mp ho
  rw [hname, hmodule]
  rfl

/-- What both halves of a generation could plan is there for every module. -/
theorem exists_outputs {s : Store} {folder : Path} {project : Entity} {modules : List Entity}
    {units : List (Entity × String)} {codes : List (List Saving)} {descriptors : List Saving}
    (hcodes : mapChecked (s.codeSavings folder (some project)) modules = .ok codes)
    (hunits : mapChecked (fun id => do return (id, ← s.moduleName id)) modules = .ok units)
    (hdescriptors : mapChecked (s.descriptorSaving folder) units = .ok descriptors) :
    ∃ outputs, mapChecked (s.output project) modules = .ok outputs := by
  refine exists_mapChecked fun id hid => ?_
  obtain ⟨_, -, hplanned⟩ := exists_mem_mapChecked hcodes hid
  obtain ⟨name, code, hname, hcode⟩ := Store.codeSavings_eq_ok hplanned
  have hunit : (id, name) ∈ units :=
    (mem_mapChecked hunits).mpr ⟨id, hid, by rw [hname]; rfl⟩
  obtain ⟨_, -, hplanned'⟩ := exists_mem_mapChecked hdescriptors hunit
  obtain ⟨target, text, htarget, htext⟩ := Store.descriptorSaving_eq_ok hplanned'
  have hcode' : s.moduleCode id (project = id) = .ok code := by
    simpa only [Option.some.injEq] using hcode
  exact ⟨⟨id, name, code, text⟩,
    Store.output_eq_ok.mpr ⟨rfl, hname, hcode', target, htarget, htext⟩⟩

/-- What both halves save, module by module. -/
theorem savings_eq {s : Store} {folder : Path} {project : Entity} {modules : List Entity}
    {outputs : List Output} {codes : List (List Saving)} {descriptors : List Saving}
    (houtputs : mapChecked (s.output project) modules = .ok outputs)
    (hcodes : mapChecked (s.codeSavings folder (some project)) modules = .ok codes)
    (hdescriptors : mapChecked (s.descriptorSaving folder)
      (outputs.map fun o => (o.module, o.name)) = .ok descriptors) :
    codes = outputs.map (·.codeSavings folder) ∧
      descriptors = outputs.map (·.descriptorSaving folder) := by
  constructor
  · refine Except.ok.inj (hcodes.symm.trans (mapChecked_comp houtputs fun id _ o ho => ?_))
    exact (Store.savings_of_output ho folder).1
  · have hall : ∀ x ∈ outputs.map fun o => ((o.module, o.name), o.descriptorSaving folder),
        s.descriptorSaving folder x.1 = .ok x.2 := by
      intro x hx
      obtain ⟨o, ho, rfl⟩ := List.mem_map.mp hx
      obtain ⟨id, -, houtput⟩ := (mem_mapChecked houtputs).mp ho
      exact (Store.savings_of_output houtput folder).2
    have hrun := mapChecked_fst hall
    rw [List.map_map, List.map_map] at hrun
    exact Except.ok.inj (hdescriptors.symm.trans hrun)

/-- The files that are saved are those of the modules and the descriptor of the project. -/
theorem mem_savings {folder : Path} {outputs : List Output} {root : Saving} {f : Path × String} :
    f ∈ ((outputs.map (·.codeSavings folder)).flatten ++
        root :: outputs.map (·.descriptorSaving folder)).map (fun x => (x.file, x.text)) ↔
      f = (root.file, root.text) ∨ ∃ o ∈ outputs, f ∈ o.files folder := by
  constructor
  · intro hf
    obtain ⟨x, hx, rfl⟩ := List.mem_map.mp hf
    rcases List.mem_append.mp hx with hx | hx
    · obtain ⟨l, hl, hx⟩ := List.mem_flatten.mp hx
      obtain ⟨o, ho, rfl⟩ := List.mem_map.mp hl
      exact Or.inr ⟨o, ho, Output.mem_files.mpr (Or.inl ⟨x, hx, rfl⟩)⟩
    · rcases List.mem_cons.mp hx with rfl | hx
      · exact Or.inl rfl
      · obtain ⟨o, ho, rfl⟩ := List.mem_map.mp hx
        exact Or.inr ⟨o, ho, Output.mem_files.mpr (Or.inr rfl)⟩
  · rintro (rfl | ⟨o, ho, hf⟩)
    · simp
    · refine List.mem_map.mpr ?_
      rcases Output.mem_files.mp hf with ⟨x, hx, rfl⟩ | rfl
      · have hcodes := List.mem_map_of_mem (f := (·.codeSavings folder)) ho
        have hcode := List.mem_flatten.mpr ⟨_, hcodes, hx⟩
        exact ⟨x, List.mem_append_left _ hcode, rfl⟩
      · have hdescriptor := List.mem_map_of_mem (f := (·.descriptorSaving folder)) ho
        exact ⟨_, List.mem_append_right _ (List.mem_cons_of_mem _ hdescriptor), rfl⟩

/-- A generation that reports nothing has saved the files of all modules and the descriptor of the
project, and no two modules have one name. -/
theorem generation_saves {x : Unit} (h : (do generateCode; generateDescriptors) w = .ok x v)
    (hquiet : v.compilation.diagnostics = w.compilation.diagnostics) :
    ∃ project projectName modules outputs files,
      v.ast.store.projectModule = .ok (some project) ∧
      v.ast.store.moduleName project = .ok projectName ∧ v.ast.store.modules = .ok modules ∧
      mapChecked (v.ast.store.output project) modules = .ok outputs ∧
      (outputs.map Output.name).Nodup ∧
      (∀ f, f ∈ files ↔ f = (rootDescriptorFile w.compilation.config.code,
          Descriptor.root projectName (outputs.map Output.name)) ∨
        ∃ o ∈ outputs, f ∈ o.files w.compilation.config.code) ∧
      Disk.saveAll files w.disk = .ok () v.disk := by
  obtain ⟨_, t, hcode, hdescriptors⟩ := bind_eq_ok h
  obtain ⟨u, project, modules, codes, hdisk, hcomp, hproject, hmodules, hcodes, hfirst⟩ :=
    of_generateCode hcode
  rcases of_generateDescriptors hdescriptors with ⟨hfiled, hreported⟩ |
    ⟨project', projectName, modules', units, descriptors, hproject', hname, hmodules', hunits,
      hproblems, hdescriptors, hsecond⟩
  · -- Something was reported in the second half, so more is reported than at the start.
    have hgrown : w.compilation.diagnostics <+: t.compilation.diagnostics :=
      hcomp ▸ hfirst.filed.grown
    have hhalf : w.compilation.diagnostics = t.compilation.diagnostics :=
      hgrown.eq_of_length_le (hquiet ▸ hfiled.grown.length_le)
    exact absurd (hquiet.trans hhalf) hreported
  · -- Both halves read the tree that is there in the end.
    have hast' : v.ast = t.ast := hsecond.filed.ast
    have hast : v.ast = u.ast := hast'.trans hfirst.filed.ast
    have hconfig : t.compilation.config = w.compilation.config :=
      hfirst.filed.config.trans (congrArg Compilation.config hcomp)
    rw [← hast'] at hproject' hname hmodules' hunits hdescriptors
    rw [← hast] at hproject hmodules hcodes
    rw [hconfig] at hdescriptors hsecond
    obtain rfl : project = some project' := Except.ok.inj (hproject.symm.trans hproject')
    obtain rfl : modules = modules' := Except.ok.inj (hmodules.symm.trans hmodules')
    obtain ⟨outputs, houtputs⟩ := exists_outputs hcodes hunits hdescriptors
    obtain rfl : units = outputs.map fun o => (o.module, o.name) :=
      Except.ok.inj (hunits.symm.trans (units_eq houtputs))
    have hnames : (outputs.map fun o => (o.module, o.name)).map Prod.snd =
        outputs.map Output.name := by
      rw [List.map_map]
      rfl
    obtain ⟨rfl, rfl⟩ := savings_eq houtputs hcodes hdescriptors
    have hrun := (hfirst.append hsecond).saveAll (by rw [hquiet, hcomp])
    rw [hdisk, hnames] at hrun
    refine ⟨project', projectName, modules, outputs, _, hproject, hname, hmodules, houtputs,
      hnames ▸ (nameProblems_eq_nil_iff.mp hproblems).1, fun f => ?_, hrun⟩
    exact mem_savings

theorem place_headerFile (folder : Path) (name : String) :
    (headerFile folder name).place =
      (folder.child name).place ++ ["Include".toList] ++ ["code.h".toList] := by
  rw [headerFile, Path.place_child (by decide), Path.place_child (by decide)]

theorem place_sourceFile (folder : Path) (name : String) :
    (sourceFile folder name).place =
      (folder.child name).place ++ ["Src".toList] ++ ["code.cpp".toList] := by
  rw [sourceFile, Path.place_child (by decide), Path.place_child (by decide)]

theorem place_moduleDescriptorFile (folder : Path) (name : String) :
    (moduleDescriptorFile folder name).place =
      (folder.child name).place ++ [Descriptor.fileName.toList] := by
  rw [moduleDescriptorFile, Path.place_child (by decide)]

theorem place_rootDescriptorFile (folder : Path) :
    (rootDescriptorFile folder).place = folder.place ++ [Descriptor.fileName.toList] := by
  rw [rootDescriptorFile, Path.place_child (by decide)]

/-- The folders that a generation writes into: that of the code, and one per module. -/
def folders (folder : Path) (outputs : List Output) : List Location :=
  folder.place :: outputs.map fun o => (folder.child o.name).place

/-- Two modules with one file in one place have one folder. -/
theorem eq_of_place_eq {folder : Path} {o o' : Output} {f g : Path × String}
    (hf : f ∈ o.files folder) (hg : g ∈ o'.files folder) (h : f.1.place = g.1.place) :
    (folder.child o.name).place = (folder.child o'.name).place ∧ (o = o' → f = g) := by
  simp only [Output.files, List.mem_cons, List.not_mem_nil, or_false] at hf hg
  rcases hf with rfl | rfl | rfl <;> rcases hg with rfl | rfl | rfl <;>
    simp only [place_headerFile, place_sourceFile, place_moduleDescriptorFile] at h <;>
    obtain ⟨h, hlast⟩ := List.append_inj' h rfl
  case inl.inl => exact ⟨(List.append_inj' h rfl).1, fun ho => ho ▸ rfl⟩
  case inr.inl.inr.inl => exact ⟨(List.append_inj' h rfl).1, fun ho => ho ▸ rfl⟩
  case inr.inr.inr.inr => exact ⟨h, fun ho => ho ▸ rfl⟩
  all_goals exact absurd hlast (by decide)

/-- A file of a module in the place of the project's descriptor is in the folder of the code. -/
theorem eq_of_place_eq_root {folder : Path} {o : Output} {f : Path × String}
    (hf : f ∈ o.files folder) (h : f.1.place = (rootDescriptorFile folder).place) :
    (folder.child o.name).place = folder.place := by
  simp only [Output.files, List.mem_cons, List.not_mem_nil, or_false] at hf
  rcases hf with rfl | rfl | rfl <;>
    simp only [place_headerFile, place_sourceFile, place_moduleDescriptorFile,
      place_rootDescriptorFile] at h <;>
    obtain ⟨h, hlast⟩ := List.append_inj' h rfl
  case inr.inr => exact h
  all_goals exact absurd hlast (by decide)

/-- Every file of every module, and the descriptor of the project, hold exactly what was generated
for them. -/
structure Delivered (d : Disk) (folder : Path) (projectName : String) (outputs : List Output) :
    Prop where
  root : d.read (rootDescriptorFile folder) =
    .ok (Descriptor.root projectName (outputs.map Output.name)).toUTF8
  modules : ∀ o ∈ outputs, ∀ f ∈ o.files folder, d.read f.1 = .ok f.2.toUTF8

variable {d d' : Disk} {folder : Path} {projectName : String} {outputs : List Output}

theorem delivered_of_nodup {files : List (Path × String)} {x : Unit}
    (hfiles : ∀ f, f ∈ files ↔ f = (rootDescriptorFile folder,
        Descriptor.root projectName (outputs.map Output.name)) ∨
      ∃ o ∈ outputs, f ∈ o.files folder)
    (hrun : Disk.saveAll files d = .ok x d') (hnodup : (folders folder outputs).Nodup) :
    Delivered d' folder projectName outputs := by
  obtain ⟨hcode, hmodules⟩ := List.nodup_cons.mp hnodup
  have hapart : ∀ o ∈ outputs, (folder.child o.name).place ≠ folder.place := fun o ho heq =>
    hcode (List.mem_map.mpr ⟨o, ho, heq⟩)
  constructor
  · refine (Disk.holds_of_saveAll hrun ((hfiles _).mpr (Or.inl rfl)) fun g hg hplace => ?_).read
    rcases (hfiles g).mp hg with rfl | ⟨o, ho, hgo⟩
    · rfl
    · exact absurd (eq_of_place_eq_root hgo hplace) (hapart o ho)
  · intro o ho f hf
    refine (Disk.holds_of_saveAll hrun ((hfiles f).mpr (Or.inr ⟨o, ho, hf⟩))
      fun g hg hplace => ?_).read
    rcases (hfiles g).mp hg with rfl | ⟨o', ho', hgo⟩
    · exact absurd (eq_of_place_eq_root hf hplace.symm) (hapart o ho)
    · obtain ⟨hfolder, hsame⟩ := eq_of_place_eq hgo hf hplace
      rw [hsame (List.inj_on_of_nodup_map hmodules ho' ho hfolder)]

/-- A place holds one text, so what is read there under two paths is the same. -/
theorem text_eq_of_read {p q : Path} {a b : String} (hp : d.read p = .ok a.toUTF8)
    (hq : d.read q = .ok b.toUTF8) (hplace : p.place = q.place) : a = b := by
  have hentry := Disk.entry_of_read hp
  rw [hplace, Disk.entry_of_read hq] at hentry
  exact String.toByteArray_inj.mp (Entry.file.inj (Option.some.inj hentry)).symm

theorem nodup_of_delivered
    (htexts : ∀ o ∈ outputs, ∃ target, Descriptor.module o.name target = .ok o.descriptor)
    (hnames : (outputs.map Output.name).Nodup) (h : Delivered d folder projectName outputs) :
    (folders folder outputs).Nodup := by
  have hread : ∀ o ∈ outputs, d.read (moduleDescriptorFile folder o.name) =
      .ok o.descriptor.toUTF8 := fun o ho =>
    h.modules o ho (moduleDescriptorFile folder o.name, o.descriptor) (by simp [Output.files])
  refine List.nodup_cons.mpr ⟨?_, ?_⟩
  · intro hin
    obtain ⟨o, ho, hplace⟩ := List.mem_map.mp hin
    obtain ⟨target, htext⟩ := htexts o ho
    refine Descriptor.module_ne_root htext (text_eq_of_read (hread o ho) h.root ?_)
    rw [place_moduleDescriptorFile, place_rootDescriptorFile, hplace]
  · -- Two modules in one folder would have one descriptor, so one name.
    rw [List.Nodup, List.pairwise_map] at hnames ⊢
    refine hnames.imp_of_mem fun {o o'} ho ho' hne hplace => hne ?_
    obtain ⟨target, htext⟩ := htexts o ho
    obtain ⟨target', htext'⟩ := htexts o' ho'
    have hsame : o.descriptor = o'.descriptor := by
      refine text_eq_of_read (hread o ho) (hread o' ho') ?_
      rw [place_moduleDescriptorFile, place_moduleDescriptorFile, hplace]
    exact Descriptor.module_injective htext (hsame ▸ htext')

/-- Names that are plain names lead to different folders. -/
theorem nodup_of_isName (hplain : ∀ o ∈ outputs, Path.IsName o.name.toList)
    (hnames : (outputs.map Output.name).Nodup) : (folders folder outputs).Nodup := by
  refine List.nodup_cons.mpr ⟨?_, ?_⟩
  · intro hin
    obtain ⟨o, ho, hplace⟩ := List.mem_map.mp hin
    rw [Path.place_child (hplain o ho)] at hplace
    simp at hplace
  · rw [List.Nodup, List.pairwise_map] at hnames ⊢
    refine hnames.imp_of_mem fun {o o'} ho ho' hne hplace => hne ?_
    rw [Path.place_child (hplain o ho), Path.place_child (hplain o' ho')] at hplace
    exact String.toList_inj.mp (by simpa using hplace)

/-- Of a generation that reports nothing, every module has its own files, and the project its own
descriptor, exactly when the folders of the modules and the folder of the code are different places.
They are when all names are plain ones. The guard against equal names does not see to the rest:
names with dots and slashes may differ as texts and lead to one place. -/
theorem delivered_iff_nodup_folders
    (h : (do generateCode; generateDescriptors) w = .ok () v)
    (hquiet : v.compilation.diagnostics = w.compilation.diagnostics) :
    ∃ project projectName modules outputs,
      v.ast.store.projectModule = .ok (some project) ∧
      v.ast.store.moduleName project = .ok projectName ∧ v.ast.store.modules = .ok modules ∧
      mapChecked (v.ast.store.output project) modules = .ok outputs ∧
      (Delivered v.disk w.compilation.config.code projectName outputs ↔
        (folders w.compilation.config.code outputs).Nodup) ∧
      ((∀ o ∈ outputs, Path.IsName o.name.toList) →
        Delivered v.disk w.compilation.config.code projectName outputs) := by
  obtain ⟨project, projectName, modules, outputs, files, hproject, hname, hmodules, houtputs,
    hnames, hfiles, hrun⟩ := generation_saves h hquiet
  have htexts : ∀ o ∈ outputs, ∃ target, Descriptor.module o.name target = .ok o.descriptor := by
    intro o ho
    obtain ⟨id, -, houtput⟩ := (mem_mapChecked houtputs).mp ho
    obtain ⟨-, -, -, target, -, htext⟩ := Store.output_eq_ok.mp houtput
    exact ⟨target, htext⟩
  have hiff : Delivered v.disk w.compilation.config.code projectName outputs ↔
      (folders w.compilation.config.code outputs).Nodup :=
    ⟨nodup_of_delivered htexts hnames, delivered_of_nodup hfiles hrun⟩
  exact ⟨project, projectName, modules, outputs, hproject, hname, hmodules, houtputs, hiff,
    fun hplain => hiff.mpr (nodup_of_isName hplain hnames)⟩

/-- A program `App` and a library of the given name. -/
def neighbours (name : String) : Workspace where
  ast := Ast.reached
    [.create, .create, .insert .module ⟨0, 0⟩ .executable, .insert .identifier ⟨0, 0⟩ "App",
      .insert .module ⟨1, 0⟩ .staticLibrary, .insert .identifier ⟨1, 0⟩ name]
  disk := .empty
  compilation := .new (.ofProject (.ofString "P"))

/-- What is left once the files of the two have been generated. -/
def neighboursLeft (name : String) : Workspace :=
  left ((do generateCode; generateDescriptors) (neighbours name))

/-- A name with a dot and a slash that leads to a folder of its own. -/
theorem delivered_iff_nodup_folders_dotted :
    (do generateCode; generateDescriptors) (neighbours "./Lib") = .ok () (neighboursLeft "./Lib") ∧
    (neighboursLeft "./Lib").compilation.diagnostics = [] ∧
    ∃ project projectName modules outputs,
      (neighboursLeft "./Lib").ast.store.projectModule = .ok (some project) ∧
      (neighboursLeft "./Lib").ast.store.moduleName project = .ok projectName ∧
      (neighboursLeft "./Lib").ast.store.modules = .ok modules ∧
      mapChecked ((neighboursLeft "./Lib").ast.store.output project) modules = .ok outputs ∧
      (Delivered (neighboursLeft "./Lib").disk (neighbours "./Lib").compilation.config.code
          projectName outputs ↔
        (folders (neighbours "./Lib").compilation.config.code outputs).Nodup) ∧
      ((∀ o ∈ outputs, Path.IsName o.name.toList) →
        Delivered (neighboursLeft "./Lib").disk (neighbours "./Lib").compilation.config.code
          projectName outputs) := by
  have hrun : (do generateCode; generateDescriptors) (neighbours "./Lib") =
      .ok () (neighboursLeft "./Lib") := eq_ok_left (by decide +kernel)
  have hquiet : (neighboursLeft "./Lib").compilation.diagnostics = [] := by decide +kernel
  exact ⟨hrun, hquiet, delivered_iff_nodup_folders hrun hquiet⟩

/-- A library named `./App` takes the entry point away from the program `App`, and nothing is
reported. -/
theorem entry_point_overwritten :
    ∃ v code, (do generateCode; generateDescriptors) (neighbours "./App") = .ok () v ∧
      v.compilation.diagnostics = [] ∧ (neighbours "./App").disk = .empty ∧
      v.ast.store.projectModule = .ok (some ⟨0, 0⟩) ∧ v.ast.store.moduleName ⟨0, 0⟩ = .ok "App" ∧
      v.ast.store.moduleCode ⟨0, 0⟩ true = .ok code ∧
      v.disk.readText (sourceFile (neighbours "./App").compilation.config.code "App") ≠
        .ok code.source := by
  have hcode : (neighboursLeft "./App").ast.store.moduleCode ⟨0, 0⟩ true =
      .ok ⟨unlines ["#pragma once", "", "#include <stdint.h>", "", "// Forward declarations", "",
        "// Declarations", "", "// Function Declarations", "", "// Function Definitions"],
        unlines ["#include <code.h>", "", "int main() \x7b return 0; \x7d"]⟩ := by decide +kernel
  exact ⟨neighboursLeft "./App", _, eq_ok_left (by decide +kernel), by decide +kernel, rfl,
    by decide +kernel, by decide +kernel, hcode, by decide +kernel⟩

end Workspace

end ModuleCompiler
