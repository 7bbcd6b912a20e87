import ModuleCompiler.Proofs.Generate

/-!
Files saved one after another. Each is attempted on the disk that the ones before it left, whatever
became of them, and a failure is reported when it happens. A list of files to be saved then accounts
for all that is done to the disk and for all that is reported. The generation of code and that of
descriptors are described by such lists, which are read off the tree before anything is written; so
neither is ever broken off, and what was reported before stays.
-/

namespace ModuleCompiler

/-- A text file to be saved, and what is reported if it cannot be. -/
structure Saving where
  file : Path
  text : String
  reason : Path → OsError → Diagnostic

/-- The files are attempted one after another, each on the disk that the attempt before it left,
and each attempt that fails is reported once. -/
inductive Attempted : List Saving → Disk → List Diagnostic → Disk → Prop
  | done (d : Disk) : Attempted [] d [] d
  | saved {x : Saving} {rest : List Saving} {d between after : Disk} {reports : List Diagnostic}
      (h : Disk.saveText x.file x.text d = .ok () between)
      (hrest : Attempted rest between reports after) : Attempted (x :: rest) d reports after
  | failed {x : Saving} {rest : List Saving} {d between after : Disk} {reports : List Diagnostic}
      {e : OsError} (h : Disk.saveText x.file x.text d = .error e between)
      (hrest : Attempted rest between reports after) :
      Attempted (x :: rest) d (x.reason x.file e :: reports) after

theorem Attempted.append {first rest : List Saving} {d between after : Disk}
    {reports more : List Diagnostic} (h : Attempted first d reports between)
    (hrest : Attempted rest between more after) :
    Attempted (first ++ rest) d (reports ++ more) after := by
  induction h with
  | done _ => exact hrest
  | saved h _ ih => exact .saved h (ih hrest)
  | failed h _ ih => exact .failed h (ih hrest)

namespace Workspace

variable {w v u : Workspace}

/-- The workspace with another disk and with further reports. -/
def leaving (w : Workspace) (d : Disk) (reports : List Diagnostic) : Workspace :=
  { w with
    disk := d
    compilation := { w.compilation with
      diagnostics := w.compilation.diagnostics ++ reports } }

theorem leaving_nothing (w : Workspace) : w.leaving w.disk [] = w := by
  unfold leaving
  rw [List.append_nil]

theorem leaving_leaving (d e : Disk) (reports more : List Diagnostic) :
    (w.leaving d reports).leaving e more = w.leaving e (reports ++ more) := by
  simp only [leaving, List.append_assoc]

/-- A workspace that comes after another by attempting files, and by nothing else. -/
def Attempts (files : List Saving) (w v : Workspace) : Prop :=
  ∃ reports d, Attempted files w.disk reports d ∧ v = w.leaving d reports

theorem filed_leaving (d : Disk) (reports : List Diagnostic) : Filed w (w.leaving d reports) :=
  ⟨⟨rfl, List.prefix_append ..⟩, rfl⟩

theorem Attempts.filed {files : List Saving} (h : Attempts files w v) : Filed w v := by
  obtain ⟨reports, d, -, rfl⟩ := h
  exact filed_leaving d reports

theorem Attempts.nil (w : Workspace) : Attempts [] w w :=
  ⟨[], w.disk, .done _, (leaving_nothing w).symm⟩

theorem Attempts.append {first rest : List Saving} (h : Attempts first w v)
    (hrest : Attempts rest v u) : Attempts (first ++ rest) w u := by
  obtain ⟨reports, d, hfirst, rfl⟩ := h
  obtain ⟨more, e, hmore, rfl⟩ := hrest
  exact ⟨reports ++ more, e, hfirst.append hmore, leaving_leaving ..⟩

theorem save_attempts (file : Path) (text : String) (reason : Path → OsError → Diagnostic) :
    Ends (save file text reason) w fun _ v => Attempts [⟨file, text, reason⟩] w v := by
  unfold save
  cases hrun : Disk.saveText file text w.disk with
  | ok u d =>
    have hdone : attempt (Disk.saveText file text) (reason file) w =
        .ok true (w.leaving d []) := by
      rw [attempt_run_ok hrun, leaving, List.append_nil]
    exact ⟨(), _, discard_run_ok hdone, [], d, .saved hrun (.done d), rfl⟩
  | error e d =>
    have hfailed : attempt (Disk.saveText file text) (reason file) w =
        .ok false (w.leaving d [reason file e]) := attempt_run_error hrun
    exact ⟨(), _, discard_run_ok hfailed, [reason file e], d, .failed hrun (.done d), rfl⟩

/-- An action that attempts files as they are planned from the tree: it is carried out if the plan
can be made, by attempting the files, and only then. -/
structure Follows (action : Action Unit) (plan : Store → Except Fault (List Saving)) : Prop where
  ends : ∀ {w files}, plan w.ast.store = .ok files → Ends action w fun _ => Attempts files w
  planned : ∀ {w v}, action w = .ok () v → ∃ files, plan w.ast.store = .ok files

namespace Follows

variable {α β : Type} {action after : Action Unit} {plan more : Store → Except Fault (List Saving)}

theorem attempts (h : Follows action plan) (hrun : action w = .ok () v) :
    ∃ files, plan w.ast.store = .ok files ∧ Attempts files w v := by
  obtain ⟨files, hfiles⟩ := h.planned hrun
  obtain ⟨_, u, hends, hu⟩ := h.ends hfiles
  obtain ⟨-, rfl⟩ := EStateM.Result.ok.inj (hends.symm.trans hrun)
  exact ⟨files, hfiles, hu⟩

theorem save (file : Path) (text : String) (reason : Path → OsError → Diagnostic) :
    Follows (save file text reason) fun _ => .ok [⟨file, text, reason⟩] where
  ends hfiles := by
    obtain rfl := Except.ok.inj hfiles
    exact save_attempts ..
  planned _ := ⟨_, rfl⟩

theorem read_bind {f : Store → Except Fault α} {next : α → Action Unit}
    {plan : α → Store → Except Fault (List Saving)} (h : ∀ a, Follows (next a) (plan a)) :
    Follows (Action.ofRead f >>= next) fun s => f s >>= fun a => plan a s where
  ends hfiles := by
    obtain ⟨a, ha, hfiles⟩ := except_bind_eq_ok hfiles
    exact ofRead_bind_ends ha ((h a).ends hfiles)
  planned hrun := by
    obtain ⟨a, ha, hnext⟩ := ofRead_bind_eq_ok hrun
    obtain ⟨files, hfiles⟩ := (h a).planned hnext
    exact ⟨files, by rw [ha]; exact hfiles⟩

/-- The tree is the same for what comes after, so that can be planned beforehand. -/
theorem andThen (h : Follows action plan) (hafter : Follows after more) :
    Follows (action >>= fun _ => after) fun s => do return (← plan s) ++ (← more s) where
  ends hfiles := by
    obtain ⟨first, hfirst, hfiles⟩ := except_bind_eq_ok hfiles
    obtain ⟨rest, hrest, hfiles⟩ := except_bind_eq_ok hfiles
    obtain rfl := Except.ok.inj hfiles
    refine (h.ends hfirst).bind fun _ t ht => ?_
    rw [← ht.filed.ast] at hrest
    exact (hafter.ends hrest).mono fun _ u hu => ht.append hu
  planned hrun := by
    obtain ⟨_, t, hfirst, hrest⟩ := bind_eq_ok hrun
    obtain ⟨files, hfiles, ht⟩ := h.attempts hfirst
    obtain ⟨rest, hmore⟩ := hafter.planned hrest
    rw [ht.filed.ast] at hmore
    exact ⟨files ++ rest, by rw [hfiles, hmore]; rfl⟩

/-- Work on a list of items attempts the files planned for each, in order. -/
theorem forM (items : List α) {action : α → Action Unit} {plan : α → Store → Except Fault β}
    {files : β → List Saving} (h : ∀ a, Follows (action a) fun s => do return files (← plan a s)) :
    Follows (items.forM action) fun s => do
      return (← mapChecked (plan · s) items).flatMap files := by
  induction items with
  | nil =>
    refine ⟨fun {w _} hfiles => ?_, fun _ => ⟨_, rfl⟩⟩
    obtain rfl := Except.ok.inj hfiles
    exact Ends.pure (.nil w)
  | cons a rest ih =>
    simpa [mapChecked] using (h a).andThen ih

end Follows

theorem forM_report_run (problems : List Diagnostic) (w : Workspace) :
    problems.forM report w = .ok () (w.leaving w.disk problems) := by
  induction problems generalizing w with
  | nil => exact congrArg (EStateM.Result.ok ()) (leaving_nothing w).symm
  | cons d rest ih =>
    have hfirst : report d w = .ok () (w.leaving w.disk [d]) := rfl
    refine (bind_run_ok hfirst).trans ((ih _).trans (congrArg _ ?_))
    exact leaving_leaving ..

end Workspace

/-- The header and the source file of a module, as the store has it. -/
def Store.codeSavings (s : Store) (folder : Path) (project : Option Entity) (id : Entity) :
    Except Fault (List Saving) := do
  let name ← s.moduleName id
  let code ← s.moduleCode id (project = some id)
  return [⟨Workspace.headerFile folder name, code.header, .headerNotSaved⟩,
    ⟨Workspace.sourceFile folder name, code.source, .sourceNotSaved⟩]

theorem Store.Linked.exists_codeSavings {s : Store} (h : s.Linked) (folder : Path)
    (project : Option Entity) :
    ∃ files, mapChecked (s.codeSavings folder project) s.moduleList = .ok files := by
  refine exists_mapChecked fun id hid => ?_
  have hvalid := isValid_of_mem_moduleList hid
  exact ⟨_, by rw [codeSavings, moduleName_run hvalid, h.moduleCode_run hvalid]; rfl⟩

namespace Workspace

variable {w v : Workspace}

theorem generateModuleCode_follows (folder : Path) (project : Option Entity) (id : Entity) :
    Follows (generateModuleCode folder id (project = some id)) (·.codeSavings folder project id) :=
  .read_bind fun _ => .read_bind fun _ => (Follows.save ..).andThen (.save ..)

/-- Module by module, the header is attempted and then the source file. -/
theorem generateModules_follows (folder : Path) (project : Option Entity) (ids : List Entity) :
    Follows (ids.forM fun id => generateModuleCode folder id (project = some id)) fun s => do
      return (← mapChecked (s.codeSavings folder project) ids).flatten := by
  have hstep : ∀ x, Follows (generateModuleCode folder x (project = some x)) fun s => do
      return id (← s.codeSavings folder project x) := by
    intro x
    simpa using generateModuleCode_follows folder project x
  simpa only [List.flatMap_id] using Follows.forM ids hstep

/-- The second half of the generation of code, once everything is spelled. -/
def emitModules : Action Unit := do
  let codeFolder := (← get).compilation.config.code
  let project ← Action.ofRead Store.projectModule
  let modules ← Action.ofRead Store.modules
  modules.forM fun id => generateModuleCode codeFolder id (project = some id)

theorem generateCode_eq :
    generateCode = (Action.ofAst Ast.spellPrimitives >>= fun _ =>
      Action.ofAst Ast.spellParameters >>= fun _ => emitModules) := rfl

theorem emitModules_attempts (h : w.ast.store.Consistent) {files : List (List Saving)}
    (hfiles : mapChecked (w.ast.store.codeSavings w.compilation.config.code w.ast.store.projectOf)
      w.ast.store.moduleList = .ok files) :
    Ends emitModules w fun _ => Attempts files.flatten w := by
  refine Ends.get_bind ?_
  refine ofRead_bind_ends h.anchored.projectModule_run ?_
  refine ofRead_bind_ends h.sound.modules_run ?_
  refine (generateModules_follows ..).ends ?_
  rw [hfiles]
  rfl

theorem disk_ofAst (action : Ast.Action Unit) (w : Workspace) :
    (left (Action.ofAst action w)).disk = w.disk ∧
      (left (Action.ofAst action w)).compilation = w.compilation := by
  unfold Action.ofAst
  cases action w.ast <;> exact ⟨rfl, rfl⟩

theorem generateCode_run {t b : Ast} (hfirst : Ast.spellPrimitives w.ast = .ok () t)
    (hsecond : Ast.spellParameters t = .ok () b) :
    generateCode w = emitModules { w with ast := b } := by
  have hrun : Action.ofAst Ast.spellPrimitives w = .ok () { w with ast := t } := by
    simp only [Action.ofAst, hfirst]
  have hrun' : Action.ofAst Ast.spellParameters { w with ast := t } =
      .ok () { w with ast := b } := by
    simp only [Action.ofAst, hsecond]
  rw [generateCode_eq, bind_run_ok hrun, bind_run_ok hrun']

/-- The texts are generated from the tree with its spellings, which stays as it is meanwhile. -/
theorem generateCode_ends (h : w.ast.Ready) :
    Ends generateCode w fun _ v => v.ast.Ready ∧ Onward w v := by
  obtain ⟨_, t, hfirst, ht, -⟩ := Ast.spellPrimitives_ends h
  obtain ⟨_, b, hsecond, hb, -⟩ := Ast.spellParameters_ends ht
  obtain ⟨files, hfiles⟩ :=
    hb.consistent.exists_codeSavings w.compilation.config.code b.store.projectOf
  obtain ⟨x, v, hemit, hv⟩ := emitModules_attempts (w := { w with ast := b }) hb.consistent hfiles
  refine ⟨x, v, (generateCode_run hfirst hsecond).trans hemit, ?_, hv.filed.config, hv.filed.grown⟩
  rw [hv.filed.ast]
  exact hb

end Workspace

/-- The descriptor of a module with a name, as the store has it. -/
def Store.descriptorSaving (s : Store) (folder : Path) (x : Entity × String) :
    Except Fault Saving := do
  let target ← s.require .module x.1
  let text ← Descriptor.module x.2 target
  return ⟨Workspace.moduleDescriptorFile folder x.2, text, .descriptorNotSaved⟩

theorem Store.Sound.exists_descriptorSavings {s : Store} (h : s.Sound) (folder : Path) :
    ∃ files, mapChecked (s.descriptorSaving folder) s.namedModules = .ok files := by
  refine exists_mapChecked fun x hx => ?_
  obtain ⟨id, hid, rfl⟩ := List.mem_map.mp hx
  obtain ⟨target, -, htarget⟩ := h.held_of_has (has_module_of_mem_moduleList hid)
  exact ⟨_, by rw [descriptorSaving, htarget]; rfl⟩

namespace Workspace

variable {w v : Workspace} {project : Entity}

theorem generateModuleDescriptor_follows (folder : Path) (x : Entity × String) :
    Follows (generateModuleDescriptor folder x.1 x.2) fun s => do
      return [← s.descriptorSaving folder x] := by
  have hfollows : Follows (generateModuleDescriptor folder x.1 x.2) fun s => do
      let target ← s.require .module x.1
      let text ← Descriptor.module x.2 target
      return [⟨moduleDescriptorFile folder x.2, text, .descriptorNotSaved⟩] :=
    .read_bind fun _ => .read_bind fun _ => .save ..
  simpa [Store.descriptorSaving] using hfollows

/-- The second half of the generation of descriptors, once nothing is wrong with the names. -/
def writeDescriptors (folder : Path) (project : String) (units : List (Entity × String)) :
    Action Unit := do
  save (rootDescriptorFile folder) (Descriptor.root project (units.map Prod.snd))
    .descriptorNotSaved
  units.forM fun (id, name) => generateModuleDescriptor folder id name

/-- The descriptor of the project is attempted first, then those of the modules in order. -/
theorem writeDescriptors_follows (folder : Path) (name : String) (units : List (Entity × String)) :
    Follows (writeDescriptors folder name units) fun s => do
      return ⟨rootDescriptorFile folder, Descriptor.root name (units.map Prod.snd),
        .descriptorNotSaved⟩ :: (← mapChecked (s.descriptorSaving folder) units) := by
  have hloop := Follows.forM units (generateModuleDescriptor_follows folder)
  simp only [List.flatMap_singleton'] at hloop
  exact (Follows.save ..).andThen (by simpa using hloop)

theorem writeDescriptors_attempts {folder : Path} {units : List (Entity × String)}
    {files : List Saving} (hfiles : mapChecked (w.ast.store.descriptorSaving folder) units =
      .ok files) (name : String) :
    Ends (writeDescriptors folder name units) w fun _ =>
      Attempts (⟨rootDescriptorFile folder, Descriptor.root name (units.map Prod.snd),
        .descriptorNotSaved⟩ :: files) w := by
  refine (writeDescriptors_follows ..).ends ?_
  rw [hfiles]
  rfl

theorem generateDescriptors_without_project (h : w.ast.store.Consistent)
    (hproject : w.ast.store.projectOf = none) :
    generateDescriptors w = .ok () (w.leaving w.disk [.nothingToDescribe]) := by
  refine (ofRead_bind_run h.anchored.projectModule_run).trans ?_
  rw [hproject]
  rfl

theorem generateDescriptors_of_project (h : w.ast.store.Consistent)
    (hproject : w.ast.store.projectOf = some project) :
    generateDescriptors w =
      if nameProblems [] w.ast.store.namedModules = [] then
        writeDescriptors w.compilation.config.code (w.ast.store.nameOf project)
          w.ast.store.namedModules w
      else .ok () (w.leaving w.disk (nameProblems [] w.ast.store.namedModules)) := by
  have hname := Store.moduleName_run (Store.isValid_of_mem_moduleList
    (Store.mem_moduleList_of_projectOf hproject))
  refine (ofRead_bind_run h.anchored.projectModule_run).trans ?_
  rw [hproject]
  refine (ofRead_bind_run h.sound.modules_run).trans ?_
  refine (ofRead_bind_run (Store.namedModules_run w.ast.store)).trans ?_
  dsimp only
  cases nameProblems [] w.ast.store.namedModules with
  | nil => exact ofRead_bind_run hname
  | cons d rest => exact forM_report_run (d :: rest) w

theorem generateDescriptors_ends (h : w.ast.store.Consistent) :
    Ends generateDescriptors w fun _ v => Filed w v := by
  cases hproject : w.ast.store.projectOf with
  | none => exact ⟨(), _, generateDescriptors_without_project h hproject, filed_leaving ..⟩
  | some project =>
    have hrun := generateDescriptors_of_project h hproject
    by_cases hproblems : nameProblems [] w.ast.store.namedModules = []
    · rw [if_pos hproblems] at hrun
      obtain ⟨files, hfiles⟩ := h.sound.exists_descriptorSavings w.compilation.config.code
      obtain ⟨x, v, hwritten, hv⟩ := writeDescriptors_attempts hfiles (w.ast.store.nameOf project)
      exact ⟨x, v, hrun.trans hwritten, hv.filed⟩
    · rw [if_neg hproblems] at hrun
      exact ⟨(), _, hrun, filed_leaving ..⟩

end Workspace

end ModuleCompiler
