import ModuleCompiler.Proofs.Build
import ModuleCompiler.Proofs.Edits
import ModuleCompiler.Proofs.Outputs

/-!
What the stages of a build keep. The stages change files by saving texts, by making and copying
folders and by launches, and only the generation of code changes the tree. A property of the disk
that each of these changes keeps is kept by the whole stage, whether it is carried out or not; one
of the tree that spelling keeps as well; and both by all steps of a build.
-/

namespace ModuleCompiler

/-- Some module goes by the name. -/
def Store.HasModuleNamed (s : Store) (name : String) : Prop :=
  ∃ ids, s.modules = .ok ids ∧ ∃ id ∈ ids, s.moduleName id = .ok name

namespace Workspace

variable {I : Disk → Prop} {ast : Ast} {c : Config} {w v : Workspace}

/-- A workspace with a given tree and configuration whose disk has a property. -/
structure Holding (I : Disk → Prop) (ast : Ast) (c : Config) (w : Workspace) : Prop where
  ast : w.ast = ast
  config : w.compilation.config = c
  disk : I w.disk

/-- The files that are written for a module of a name. -/
def moduleFiles (code : Path) (name : String) : List Path :=
  [headerFile code name, sourceFile code name, moduleDescriptorFile code name]

/-- A property of disks that is kept when the files of a module are saved. -/
def SavesKeep (I : Disk → Prop) (code : Path) (name : String) : Prop :=
  ∀ file ∈ moduleFiles code name, ∀ text, Keeps I I (Disk.saveText file text)

namespace Holding

theorem report (d : Diagnostic) : Keeps (Holding I ast c) (Holding I ast c) (report d) :=
  fun _ hw => ⟨hw.ast, hw.config, hw.disk⟩

theorem attempt {ε : Type} {action : EStateM ε Disk Unit} (h : Keeps I I action)
    (reason : ε → Diagnostic) :
    Keeps (Holding I ast c) (Holding I ast c) (attempt action reason) := by
  intro w hw
  have hleft := h.left hw.disk
  cases hrun : action w.disk with
  | ok u d =>
    rw [hrun] at hleft
    rw [attempt_run_ok hrun]
    exact ⟨hw.ast, hw.config, hleft⟩
  | error e d =>
    rw [hrun] at hleft
    rw [attempt_run_error hrun]
    exact ⟨hw.ast, hw.config, hleft⟩

theorem save {file : Path} {text : String} (h : Keeps I I (Disk.saveText file text))
    (reason : Path → OsError → Diagnostic) :
    Keeps (Holding I ast c) (Holding I ast c) (save file text reason) :=
  (attempt h _).discard

theorem read {α : Type} (f : Store → Except Fault α) :
    Keeps (Holding I ast c) (Holding I ast c) (Action.ofRead f) := by
  intro w hw
  unfold Action.ofRead
  cases f w.ast.store with
  | ok a => exact hw
  | error e => exact hw

/-- What is read is read from the given tree. -/
theorem read_bind {α β : Type} {f : Store → Except Fault α} {next : α → Action β}
    (h : ∀ a, f ast.store = .ok a → Keeps (Holding I ast c) (Holding I ast c) (next a)) :
    Keeps (Holding I ast c) (Holding I ast c) (Action.ofRead f >>= next) := by
  intro w hw
  rw [bind_run]
  cases hread : f w.ast.store with
  | ok a =>
    rw [ofRead_run_ok hread]
    exact h a (hw.ast ▸ hread) w hw
  | error e =>
    rw [ofRead_run_error hread]
    exact hw

theorem get_bind {β : Type} {next : Workspace → Action β}
    (h : ∀ w, w.compilation.config = c → Keeps (Holding I ast c) (Holding I ast c) (next w)) :
    Keeps (Holding I ast c) (Holding I ast c) (get >>= next) :=
  Keeps.get_bind_of fun w hw => h w hw.config

theorem generateModuleCode {id : Entity} {isProject : Bool}
    (h : ∀ name, ast.store.moduleName id = .ok name → SavesKeep I c.code name) :
    Keeps (Holding I ast c) (Holding I ast c) (generateModuleCode c.code id isProject) := by
  refine read_bind fun name hname => read_bind fun code _ => ?_
  have hsave := h name hname
  refine (save (hsave _ (by simp [moduleFiles]) _) _).bind fun _ => ?_
  exact save (hsave _ (by simp [moduleFiles]) _) _

theorem generateModuleDescriptor {id : Entity} {name : String} (h : SavesKeep I c.code name) :
    Keeps (Holding I ast c) (Holding I ast c) (generateModuleDescriptor c.code id name) :=
  read_bind fun _ _ => read_bind fun _ _ => save (h _ (by simp [moduleFiles]) _) _

/-- Descriptors are written next to the code, if they are written. -/
theorem generateDescriptors
    (hroot : ∀ text, Keeps I I (Disk.saveText (rootDescriptorFile c.code) text))
    (h : ∀ name, ast.store.HasModuleNamed name → SavesKeep I c.code name) :
    Keeps (Holding I ast c) (Holding I ast c) generateDescriptors := by
  refine read_bind fun project _ => ?_
  cases project with
  | none => exact report _
  | some project =>
    refine read_bind fun ids hids => read_bind fun modules hmodules => ?_
    dsimp only
    split
    · refine get_bind fun w hw => read_bind fun name _ => ?_
      rw [hw]
      refine (save (hroot _) _).bind fun _ => Keeps.forM ?_
      rintro ⟨id, name⟩ hin
      obtain ⟨id', hid, hpair⟩ := (mem_mapChecked hmodules).mp hin
      obtain ⟨name', hname, hsame⟩ := except_bind_eq_ok hpair
      obtain ⟨rfl, rfl⟩ := Prod.mk.inj (Except.ok.inj hsame)
      exact generateModuleDescriptor (h _ ⟨ids, hids, _, hid, hname⟩)
    · exact Keeps.forM fun d _ => report d

end Holding

theorem Holding.emitModules
    (h : ∀ name, ast.store.HasModuleNamed name → SavesKeep I c.code name) :
    Keeps (Holding I ast c) (Holding I ast c) emitModules := by
  refine get_bind fun w hw => read_bind fun project _ => read_bind fun ids hids => ?_
  rw [hw]
  refine Keeps.forM fun id hid => generateModuleCode fun name hname => ?_
  exact h name ⟨ids, hids, id, hid, hname⟩

/-- While code is emitted the tree stays as it is. -/
theorem ast_emitModules (w : Workspace) : (left (emitModules w)).ast = w.ast := by
  have hkept : Keeps (Holding (fun _ => True) w.ast w.compilation.config)
      (Holding (fun _ => True) w.ast w.compilation.config) emitModules :=
    Holding.emitModules fun _ _ _ _ _ => .trivial _
  exact (hkept.left ⟨rfl, rfl, trivial⟩).ast

/-- Code is generated by saving the files of the modules that the spelled tree has. -/
theorem generateCode_holding (hw : I w.disk)
    (h : ∀ name, (left (generateCode w)).ast.store.HasModuleNamed name →
      SavesKeep I w.compilation.config.code name) :
    Holding I (left (generateCode w)).ast w.compilation.config (left (generateCode w)) := by
  revert h
  rw [generateCode_eq, bind_run]
  obtain ⟨hdisk, hcompilation⟩ := disk_ofAst Ast.spellPrimitives w
  cases hrun : Action.ofAst Ast.spellPrimitives w with
  | error e u =>
    rw [hrun] at hdisk hcompilation
    exact fun _ => ⟨rfl, congrArg Compilation.config hcompilation, hdisk ▸ hw⟩
  | ok x u =>
    rw [hrun] at hdisk hcompilation
    simp only
    rw [bind_run]
    obtain ⟨hdisk', hcompilation'⟩ := disk_ofAst Ast.spellParameters u
    cases hrun' : Action.ofAst Ast.spellParameters u with
    | error e t =>
      rw [hrun'] at hdisk' hcompilation'
      exact fun _ => ⟨rfl, congrArg Compilation.config (hcompilation'.trans hcompilation),
        hdisk' ▸ hdisk ▸ hw⟩
    | ok x t =>
      rw [hrun'] at hdisk' hcompilation'
      intro h
      have hconfig : t.compilation.config = w.compilation.config :=
        congrArg Compilation.config (hcompilation'.trans hcompilation)
      have hdisk : t.disk = w.disk := hdisk'.trans hdisk
      simp only [ast_emitModules] at h ⊢
      exact (Holding.emitModules h).left ⟨rfl, hconfig, hdisk ▸ hw⟩

/-- What spelling keeps of the tree is kept by the generation of code. -/
theorem ast_generateCode {T : Ast → Prop} (hfirst : Keeps T T Ast.spellPrimitives)
    (hsecond : Keeps T T Ast.spellParameters) (hw : T w.ast) : T (left (generateCode w)).ast := by
  have hspell : ∀ {action : Ast.Action Unit}, Keeps T T action →
      Keeps (fun v : Workspace => T v.ast) (fun v => T v.ast) (Action.ofAst action) := by
    intro action h
    refine .of_left fun v hv => ?_
    have hleft := h.left hv
    unfold Action.ofAst
    cases hrun : action v.ast <;> (rw [hrun] at hleft; exact hleft)
  rw [generateCode_eq]
  refine ((hspell hfirst).bind fun _ => (hspell hsecond).bind fun _ => .of_left ?_).left
    (s := w) hw
  intro v hv
  rw [ast_emitModules]
  exact hv

end Workspace

/-- Spellings do not change the names of modules. -/
theorem Ast.SameBut.hasModuleNamed {k : Kind} {ast after : Ast} (h : SameBut k ast after)
    (hast : Ready ast) (hafter : Ready after) (hk : k = .cppName ∨ k = .cppFragment)
    {name : String} (hname : after.store.HasModuleNamed name) : ast.store.HasModuleNamed name := by
  have hsame : ∀ j, j = .module ∨ j = .identifier ∨ j = .fileRef →
      after.store.component? j = ast.store.component? j := by
    intro j hj
    refine h.component? j ?_
    rcases hk with rfl | rfl <;> rcases hj with rfl | rfl | rfl <;> decide
  obtain ⟨ids, hids, id, hid, hrun⟩ := hname
  obtain rfl := Except.ok.inj (hafter.consistent.sound.modules_run.symm.trans hids)
  have hvalid := Store.isValid_of_mem_moduleList hid
  have hvalid' : ast.store.isValid id := by rwa [← h.isValid]
  refine ⟨_, hast.consistent.sound.modules_run, id, ?_, ?_⟩
  · obtain ⟨-, hkinds⟩ := Query.mem_scan.mp hid
    refine Query.mem_scan.mpr ⟨hvalid', fun j hj => ?_⟩
    have hj' := hkinds j hj
    obtain rfl : j = .module := by simpa [Query.kinds] using hj
    rw [hafter.consistent.sound.has_eq, h.isValid, hsame _ (Or.inl rfl)] at hj'
    rw [hast.consistent.sound.has_eq]
    exact hj'
  · rw [Store.moduleName_run hvalid] at hrun
    rw [Store.moduleName_run hvalid', ← hrun]
    simp only [Store.nameOf, Store.folderOf, hsame _ (Or.inr (Or.inl rfl)),
      hsame _ (Or.inr (Or.inr rfl))]

theorem Workspace.names_generateCode {w : Workspace} (h : w.ast.Ready) {name : String}
    (hname : (left (generateCode w)).ast.store.HasModuleNamed name) :
    w.ast.store.HasModuleNamed name := by
  obtain ⟨_, u, hfirst, hu, hsame, -⟩ := Ast.spellPrimitives_ends h
  obtain ⟨_, t, hsecond, ht, hsame', -⟩ := Ast.spellParameters_ends hu
  rw [generateCode_run hfirst hsecond, ast_emitModules] at hname
  exact hsame.hasModuleNamed h hu (Or.inl rfl) (hsame'.hasModuleNamed hu ht (Or.inr rfl) hname)

namespace Pipeline

variable {I : Disk → Prop} {ast : Ast} {c : Config} {st : BuildState} {launcher : Launcher}

/-- A pipeline in a given state that works on a given tree, with a given configuration, and on a
disk that has a property. -/
structure Holding (I : Disk → Prop) (ast : Ast) (c : Config) (st : BuildState) (p : Pipeline) :
    Prop extends Workspace.Holding I ast c p.workspace where
  state : p.state = st

namespace Holding

theorem ofWorkspace {α : Type} {action : Workspace.Action α}
    (h : Keeps (Workspace.Holding I ast c) (Workspace.Holding I ast c) action) :
    Keeps (Holding I ast c st) (Holding I ast c st) (Action.ofWorkspace action) := by
  refine .of_left fun p hp => ?_
  rw [left_ofWorkspace]
  exact ⟨h.left hp.toHolding, hp.state⟩

theorem read_bind {α β : Type} {f : Store → Except Fault α} {next : α → Action β}
    (h : ∀ a, f ast.store = .ok a → Keeps (Holding I ast c st) (Holding I ast c st) (next a)) :
    Keeps (Holding I ast c st) (Holding I ast c st) (Action.ofWorkspace (.ofRead f) >>= next) := by
  intro p hp
  rw [bind_run]
  cases hread : f p.workspace.ast.store with
  | ok a =>
    rw [read_run hread]
    exact h a (hp.ast ▸ hread) p hp
  | error e =>
    rw [read_run_error hread]
    exact hp

theorem report (d : Diagnostic) : Keeps (Holding I ast c st) (Holding I ast c st) (report d) :=
  ofWorkspace (Workspace.Holding.report d)

theorem attempt {ε : Type} {action : EStateM ε Disk Unit} (h : Keeps I I action)
    (reason : ε → Diagnostic) :
    Keeps (Holding I ast c st) (Holding I ast c st) (attempt action reason) :=
  ofWorkspace (Workspace.Holding.attempt h reason)

theorem conclude (next : BuildState) (stage : Stage) :
    Keeps (Holding I ast c st) (Holding I ast c st) (conclude next stage) := by
  refine Keeps.get_bind fun p => ?_
  split
  · exact (report _).bind fun _ => Keeps.pure _
  · exact Keeps.pure _

theorem prepare (h : Keeps I I (Disk.recreateFolder c.binaries)) :
    Keeps (Holding I ast c st) (Holding I ast c st) prepare := by
  refine Keeps.get_bind fun p => ?_
  split
  · exact Keeps.pure _
  · refine read_bind fun project _ => ?_
    cases project with
    | none => exact (report _).bind fun _ => Keeps.pure _
    | some project =>
      refine (ofWorkspace (Workspace.Holding.read _)).discard.bind fun _ =>
        Keeps.get_bind_of fun q hq => ?_
      have hconfig : q.config = c := hq.config
      rw [hconfig]
      exact attempt h _

theorem generateDescriptors
    (hroot : ∀ text, Keeps I I (Disk.saveText (Workspace.rootDescriptorFile c.code) text))
    (h : ∀ name, ast.store.HasModuleNamed name → Workspace.SavesKeep I c.code name) :
    Keeps (Holding I ast c st) (Holding I ast c st) generateDescriptors :=
  (ofWorkspace (Workspace.Holding.generateDescriptors hroot h)).bind fun _ => conclude _ _

theorem launch (h : ∀ earlier command d, I d → I (launcher earlier command d).2)
    (command : Command) (reason : LaunchError → Diagnostic) :
    Keeps (Holding I ast c st) (Holding I ast c st) (launch launcher command reason) := by
  intro p hp
  have hdisk := h p.launches command p.workspace.disk hp.disk
  unfold Pipeline.launch
  rw [get_bind_run]
  cases hrun : launcher p.launches command p.workspace.disk with
  | mk answer disk =>
    rw [hrun] at hdisk
    cases answer with
    | ok u => exact ⟨⟨hp.ast, hp.config, hdisk⟩, hp.state⟩
    | error e => exact ⟨⟨hp.ast, hp.config, hdisk⟩, hp.state⟩

theorem compile (hmake : Keeps I I (Disk.createFolder c.cmake))
    (h : ∀ earlier command d, I d → I (launcher earlier command d).2) :
    Keeps (Holding I ast c st) (Holding I ast c st) (compile launcher) := by
  refine Keeps.get_bind_of fun p hp => ?_
  have hconfig : p.config = c := hp.config
  rw [hconfig]
  refine (attempt hmake _).bind fun made => ?_
  dsimp only
  split
  · refine Keeps.bind (launch h _ _) fun configured => ?_
    split
    · exact ((launch h _ _).discard).bind fun _ => conclude _ _
    · exact conclude _ _
  · exact conclude _ _

theorem copyModule {folders : Config} {name : String}
    (h : Keeps I I (Disk.copyFolder (builtFolder folders name) (artifactFolder folders name))) :
    Keeps (Holding I ast c st) (Holding I ast c st) (copyModule folders name) :=
  (attempt h _).discard

theorem copyArtifacts (hcode : Keeps I I (Disk.copyFolder c.code c.binaries))
    (h : ∀ name, ast.store.HasModuleNamed name →
      Keeps I I (Disk.copyFolder (builtFolder c name) (artifactFolder c name))) :
    Keeps (Holding I ast c st) (Holding I ast c st) copyArtifacts := by
  refine Keeps.get_bind_of fun p hp => ?_
  have hconfig : p.config = c := hp.config
  rw [hconfig]
  refine (attempt hcode _).bind fun copied => ?_
  dsimp only
  split
  · refine read_bind fun ids hids => ?_
    refine Keeps.bind (Keeps.forM fun id hid => read_bind fun name hname => ?_) fun _ =>
      conclude _ _
    exact copyModule (h name ⟨ids, hids, id, hid, hname⟩)
  · exact conclude _ _

end Holding

/-- A pipeline in a given state, with a given configuration, whose tree and disk have properties. -/
structure Upheld (T : Ast → Prop) (I : Disk → Prop) (c : Config) (st : BuildState) (p : Pipeline) :
    Prop where
  tree : T p.workspace.ast
  config : p.config = c
  disk : I p.workspace.disk
  state : p.state = st

/-- A property of trees and one of disks that whatever a build may do keeps. The tree is changed
when code is generated, and the files that are written and copied go by the names that it has. -/
structure Upholds (T : Ast → Prop) (I : Disk → Prop) (c : Config) (launcher : Launcher) :
    Prop where
  tree : ∀ w : Workspace, T w.ast → T (left (Workspace.generateCode w)).ast
  binaries : Keeps I I (Disk.recreateFolder c.binaries)
  code : Keeps I I (Disk.recreateFolder c.code)
  saves : ∀ {ast name}, T ast → ast.store.HasModuleNamed name → Workspace.SavesKeep I c.code name
  root : ∀ text, Keeps I I (Disk.saveText (Workspace.rootDescriptorFile c.code) text)
  cmake : Keeps I I (Disk.createFolder c.cmake)
  launches : ∀ earlier command d, I d → I (launcher earlier command d).2
  copies : Keeps I I (Disk.copyFolder c.code c.binaries)
  artifacts : ∀ {ast name}, T ast → ast.store.HasModuleNamed name →
    Keeps I I (Disk.copyFolder (builtFolder c name) (artifactFolder c name))

variable {T : Ast → Prop} {p : Pipeline}

/-- What leaves the tree alone needs to keep the property of the disk only. -/
theorem Upheld.of_holding {α : Type} {action : Action α}
    (h : ∀ ast, T ast → Keeps (Holding I ast c st) (Holding I ast c st) action) :
    Keeps (Upheld T I c st) (Upheld T I c st) action := by
  refine .of_left fun p hp => ?_
  have hleft := (h p.workspace.ast hp.tree).left ⟨⟨rfl, hp.config, hp.disk⟩, hp.state⟩
  exact ⟨hleft.ast.symm ▸ hp.tree, hleft.config, hleft.disk, hleft.state⟩

namespace Upholds

theorem generateWorkspace (h : Upholds T I c launcher) :
    Keeps (Upheld T I c st) (Upheld T I c st) (Action.ofWorkspace Workspace.generateCode) := by
  refine .of_left fun p hp => ?_
  have htree := h.tree p.workspace hp.tree
  have hconfig : p.workspace.compilation.config = c := hp.config
  have hholding := Workspace.generateCode_holding hp.disk fun name hname => by
    rw [hconfig]
    exact h.saves htree hname
  rw [left_ofWorkspace]
  exact ⟨htree, hholding.config.trans hconfig, hholding.disk, hp.state⟩

theorem generateCode (h : Upholds T I c launcher) :
    Keeps (Upheld T I c st) (Upheld T I c st) generateCode := by
  have hconclude : Keeps (Upheld T I c st) (Upheld T I c st)
      (conclude .codeGenerated .codeGeneration) :=
    Upheld.of_holding fun _ _ => Holding.conclude _ _
  refine Keeps.bind (Upheld.of_holding fun _ _ => Holding.prepare h.binaries) fun done => ?_
  split
  · exact Keeps.pure _
  · refine Keeps.get_bind_of fun p hp => ?_
    rw [hp.config]
    refine Keeps.bind (Upheld.of_holding fun _ _ => Holding.attempt h.code _) fun made => ?_
    split
    · exact h.generateWorkspace.bind fun _ => hconclude
    · exact hconclude

/-- Every stage keeps the properties, whether it is carried out or broken off. -/
theorem advance (h : Upholds T I c launcher) (start : BuildState) :
    Keeps (Upheld T I c st) (Upheld T I c st) (advance launcher start) := by
  cases start with
  | idle => exact h.generateCode
  | codeGenerated =>
    exact Upheld.of_holding fun _ hast => Holding.generateDescriptors h.root fun _ => h.saves hast
  | descriptorGenerated => exact Upheld.of_holding fun _ _ => Holding.compile h.cmake h.launches
  | compiled =>
    exact Upheld.of_holding fun _ hast => Holding.copyArtifacts h.copies fun _ => h.artifacts hast
  | artifactsCopied => exact Keeps.pure _
  | done => exact Keeps.pure _
  | failed stage => exact Keeps.pure _

/-- A step that is broken off leaves the state as it was. -/
theorem step (h : Upholds T I c launcher) (hp : Upheld T I c st p) :
    ∃ next, Upheld T I c next (left (step launcher p)) := by
  have hleft := (h.advance p.state).left hp
  cases hrun : Pipeline.advance launcher p.state p with
  | ok next q =>
    rw [hrun] at hleft
    rw [step_run hrun]
    exact ⟨next, hleft.tree, hleft.config, hleft.disk, rfl⟩
  | error e q =>
    rw [hrun] at hleft
    rw [step_run_error hrun]
    exact ⟨st, hleft⟩

theorem course (h : Upholds T I c launcher) (hp : Upheld T I c st p) (n : Nat) :
    ∃ next, Upheld T I c next (course launcher p n) := by
  induction n with
  | zero => exact ⟨st, hp⟩
  | succ n ih =>
    obtain ⟨next, hnext⟩ := ih
    exact h.step hnext

end Upholds

end Pipeline

end ModuleCompiler
