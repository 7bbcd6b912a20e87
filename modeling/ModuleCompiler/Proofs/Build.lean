import ModuleCompiler.Pipeline
import ModuleCompiler.Proofs.Saving

/-!
The course of a build. No step of it is broken off, whatever the file system and the launcher do. A
build that goes on has reported nothing; one that has ended in failure says so last; and the two
commands are given in order, the second only after the first was answered well.
-/

namespace ModuleCompiler.Pipeline

variable {p q r : Pipeline} {launcher : Launcher}

def diagnostics (p : Pipeline) : List Diagnostic := p.workspace.compilation.diagnostics

theorem hasErrors_eq (p : Pipeline) : p.hasErrors = !p.diagnostics.isEmpty := rfl

/-- A pipeline that may come after another while no command is given. -/
structure Onward (p q : Pipeline) : Prop where
  ready : q.workspace.ast.Ready
  workspace : p.workspace.Onward q.workspace
  tool : q.tool = p.tool
  launches : q.launches = p.launches

/-- A pipeline that comes after another by work on files only. -/
structure Filed (p q : Pipeline) : Prop where
  workspace : p.workspace.Filed q.workspace
  tool : q.tool = p.tool
  launches : q.launches = p.launches

theorem Onward.refl (hready : p.workspace.ast.Ready) : Onward p p :=
  ⟨hready, ⟨rfl, List.prefix_rfl⟩, rfl, rfl⟩

theorem Filed.refl (p : Pipeline) : Filed p p := ⟨.refl _, rfl, rfl⟩

theorem Filed.trans (h : Filed p q) (h' : Filed q r) : Filed p r :=
  ⟨h.workspace.trans h'.workspace, h'.tool.trans h.tool, h'.launches.trans h.launches⟩

theorem Onward.filed (h : Onward p q) (hr : Filed q r) : Onward p r :=
  ⟨hr.workspace.ast ▸ h.ready, h.workspace.trans hr.workspace.toOnward, hr.tool.trans h.tool,
    hr.launches.trans h.launches⟩

/-- Generation goes on from where work on files has left off. -/
theorem Onward.generated (h : Onward p q) {w : Workspace} (hready : w.ast.Ready)
    (hw : q.workspace.Onward w) : Onward p { q with workspace := w } :=
  ⟨hready, h.workspace.trans hw, h.tool, h.launches⟩

theorem Onward.grown (h : Onward p q) : p.diagnostics <+: q.diagnostics := h.workspace.grown

theorem ofWorkspace_run_ok {α : Type} {action : Workspace.Action α} {a : α} {w : Workspace}
    (h : action p.workspace = .ok a w) :
    Action.ofWorkspace action p = .ok a { p with workspace := w } := by
  simp only [Action.ofWorkspace, h]

theorem left_ofWorkspace {α : Type} (action : Workspace.Action α) (p : Pipeline) :
    left (Action.ofWorkspace action p) = { p with workspace := left (action p.workspace) } := by
  unfold Action.ofWorkspace
  cases action p.workspace <;> rfl

theorem ofWorkspace_ends {α : Type} {action : Workspace.Action α} {R : α → Workspace → Prop}
    (h : Ends action p.workspace R) :
    Ends (Action.ofWorkspace action) p fun a q => ∃ w, q = { p with workspace := w } ∧ R a w := by
  obtain ⟨a, w, hrun, hw⟩ := h
  exact ⟨a, { p with workspace := w }, ofWorkspace_run_ok hrun, w, rfl, hw⟩

section Read

variable {α β : Type} {f : Store → Except Fault α} {a : α}

theorem read_run (h : f p.workspace.ast.store = .ok a) :
    Action.ofWorkspace (.ofRead f) p = .ok a p :=
  ofWorkspace_run_ok (Workspace.ofRead_run_ok h)

theorem read_run_error {e : Fault} (h : f p.workspace.ast.store = .error e) :
    Action.ofWorkspace (.ofRead f) p = .error e p := by
  simp only [Action.ofWorkspace, Workspace.Action.ofRead, h]

theorem of_read_run (h : Action.ofWorkspace (.ofRead f) p = .ok a q) :
    f p.workspace.ast.store = .ok a ∧ q = p := by
  cases hf : f p.workspace.ast.store with
  | ok b =>
    rw [read_run hf] at h
    obtain ⟨rfl, rfl⟩ := EStateM.Result.ok.inj h
    exact ⟨rfl, rfl⟩
  | error e =>
    rw [read_run_error hf] at h
    cases h

theorem ofRead_bind_ends {next : α → Action β} {R : β → Pipeline → Prop}
    (h : f p.workspace.ast.store = .ok a) (hnext : Ends (next a) p R) :
    Ends (Action.ofWorkspace (.ofRead f) >>= next) p R := by
  obtain ⟨b, q, hrun, hR⟩ := hnext
  exact ⟨b, q, (bind_run_ok (read_run h)).trans hrun, hR⟩

end Read

def onDisk (p : Pipeline) (d : Disk) : Pipeline :=
  { p with workspace := { p.workspace with disk := d } }

/-- The pipeline with one more report. -/
def reporting (p : Pipeline) (d : Diagnostic) : Pipeline :=
  { p with
    workspace := { p.workspace with compilation := p.workspace.compilation.report d } }

theorem diagnostics_reporting (d : Diagnostic) :
    (p.reporting d).diagnostics = p.diagnostics ++ [d] := rfl

theorem filed_reporting (d : Diagnostic) : Filed p (p.reporting d) :=
  ⟨⟨⟨rfl, List.prefix_append ..⟩, rfl⟩, rfl, rfl⟩

section Attempt

variable {ε : Type} {action : EStateM ε Disk Unit} {reason : ε → Diagnostic} {d : Disk}

theorem attempt_run_ok {u : Unit} (h : action p.workspace.disk = .ok u d) :
    attempt action reason p = .ok true (p.onDisk d) :=
  ofWorkspace_run_ok (Workspace.attempt_run_ok h)

theorem attempt_run_error {e : ε} (h : action p.workspace.disk = .error e d) :
    attempt action reason p = .ok false ((p.onDisk d).reporting (reason e)) :=
  ofWorkspace_run_ok (Workspace.attempt_run_error h)

theorem of_attempt_run (h : attempt action reason p = .ok true q) :
    ∃ d, action p.workspace.disk = .ok () d ∧ q = p.onDisk d := by
  cases hrun : action p.workspace.disk with
  | ok u d =>
    rw [attempt_run_ok hrun] at h
    exact ⟨d, rfl, (EStateM.Result.ok.inj h).2.symm⟩
  | error e d =>
    rw [attempt_run_error hrun] at h
    cases h

end Attempt

/-- A stage leads on if nothing was reported, and only then. -/
theorem conclude_run (next : BuildState) (stage : Stage) (p : Pipeline) :
    conclude next stage p =
      if p.diagnostics = [] then .ok next p
      else .ok (.failed stage) (p.reporting (.stageFailed stage)) := by
  unfold conclude
  rw [get_bind_run, hasErrors_eq]
  cases p.diagnostics <;> rfl

theorem clean_of_conclude {next st : BuildState} {stage : Stage}
    (h : conclude next stage p = .ok st q) (hst : st ≠ .failed stage) :
    p.diagnostics = [] ∧ st = next ∧ q = p := by
  rw [conclude_run] at h
  split at h
  · rename_i hclean
    obtain ⟨rfl, rfl⟩ := EStateM.Result.ok.inj h
    exact ⟨hclean, rfl, rfl⟩
  · exact absurd (EStateM.Result.ok.inj h).1.symm hst

theorem attempt_ends {ε : Type} (action : EStateM ε Disk Unit) (reason : ε → Diagnostic) :
    Ends (attempt action reason) p fun done q => Filed p q ∧
      q.workspace.disk = left (action p.workspace.disk) ∧
      q.diagnostics.length = p.diagnostics.length + if done then 0 else 1 := by
  refine (ofWorkspace_ends (Workspace.attempt_ends action reason)).mono ?_
  rintro done _ ⟨w, rfl, hfiled, hdisk, hlength⟩
  exact ⟨⟨hfiled, rfl, rfl⟩, hdisk, hlength⟩

/-- How a stage is concluded: with the state it leads to and no report at all, or in failure with
its summary after other reports. -/
def Closed (next : BuildState) (stage : Stage) (st : BuildState) (reports : List Diagnostic) :
    Prop :=
  (st = next ∧ reports = []) ∨
    (st = .failed stage ∧ 2 ≤ reports.length ∧ reports.getLast? = some (.stageFailed stage))

theorem Onward.conclude_ends (h : Onward p q) (next : BuildState) (stage : Stage) :
    Ends (conclude next stage) q fun st r =>
      Onward p r ∧ q.diagnostics <+: r.diagnostics ∧ Closed next stage st r.diagnostics := by
  have hrun := conclude_run next stage q
  by_cases hclean : q.diagnostics = []
  · rw [if_pos hclean] at hrun
    exact ⟨next, q, hrun, h, List.prefix_rfl, Or.inl ⟨rfl, hclean⟩⟩
  · rw [if_neg hclean] at hrun
    have hpos := List.length_pos_of_ne_nil hclean
    refine ⟨.failed stage, _, hrun, h.filed (filed_reporting _), List.prefix_append ..,
      Or.inr ⟨rfl, ?_, ?_⟩⟩
    · rw [diagnostics_reporting, List.length_append, List.length_singleton]
      omega
    · simp [diagnostics_reporting]

/-- Empties the folder of the binaries, or reports once why not. -/
theorem prepare_ends (hready : p.workspace.ast.Ready) (hclean : p.diagnostics = []) :
    Ends prepare p fun done q => Filed p q ∧ q.diagnostics.length = if done then 0 else 1 := by
  refine Ends.get_bind ?_
  rw [hasErrors_eq, hclean]
  refine ofRead_bind_ends hready.consistent.anchored.projectModule_run ?_
  cases hproject : p.workspace.ast.store.projectOf with
  | none =>
    refine ⟨false, p.reporting .nothingToBuild, rfl, filed_reporting _, ?_⟩
    simp [diagnostics_reporting, hclean]
  | some project =>
    have hvalid := Store.isValid_of_mem_moduleList (Store.mem_moduleList_of_projectOf hproject)
    have hname : Ends (discard (Action.ofWorkspace (.ofRead (·.moduleName project)))) p
        fun _ q => q = p :=
      Ends.discard ⟨_, p, read_run (Store.moduleName_run hvalid), rfl⟩
    refine hname.bind ?_
    rintro _ p rfl
    refine Ends.get_bind ((attempt_ends _ _).mono ?_)
    rintro done q ⟨hfiled, -, hlength⟩
    rw [hclean] at hlength
    exact ⟨hfiled, hlength.trans (Nat.zero_add _)⟩

/-- The first stage, which may already fail in its preparation and then ends without a summary. -/
theorem generateCode_ends (hready : p.workspace.ast.Ready) (hclean : p.diagnostics = []) :
    Ends generateCode p fun st q => Onward p q ∧
      ((st = .failed .prepare ∧ q.diagnostics.length = 1) ∨
        Closed .codeGenerated .codeGeneration st q.diagnostics) := by
  refine (prepare_ends hready hclean).bind ?_
  rintro done q ⟨hfiled, hlength⟩
  have hq := (Onward.refl hready).filed hfiled
  cases done with
  | false => exact Ends.pure ⟨hq, Or.inl ⟨rfl, hlength⟩⟩
  | true =>
    refine Ends.get_bind ((attempt_ends _ _).bind ?_)
    rintro done r ⟨hfiled', -, -⟩
    have hr := hq.filed hfiled'
    cases done with
    | false => exact (hr.conclude_ends _ _).mono fun _ _ h => ⟨h.1, Or.inr h.2.2⟩
    | true =>
      refine (ofWorkspace_ends (Workspace.generateCode_ends hr.ready)).bind ?_
      rintro _ _ ⟨w, rfl, hw, hon⟩
      exact ((hr.generated hw hon).conclude_ends _ _).mono fun _ _ h => ⟨h.1, Or.inr h.2.2⟩

theorem generateDescriptors_ends (hready : p.workspace.ast.Ready) :
    Ends generateDescriptors p fun st q => Onward p q ∧
      Closed .descriptorGenerated .descriptorGeneration st q.diagnostics := by
  refine (ofWorkspace_ends (Workspace.generateDescriptors_ends hready.consistent)).bind ?_
  rintro _ _ ⟨w, rfl, hfiled⟩
  have hw : w.ast.Ready := hfiled.ast ▸ hready
  refine (((Onward.refl hready).generated hw hfiled.toOnward).conclude_ends _ _).mono ?_
  exact fun _ _ h => ⟨h.1, h.2.2⟩

theorem copyModule_ends (config : Config) (name : String) :
    Ends (copyModule config name) p fun _ q => Filed p q :=
  Ends.discard ((attempt_ends _ _).mono fun _ _ h => h.1)

theorem copyArtifacts_ends (hready : p.workspace.ast.Ready) :
    Ends copyArtifacts p fun st q => Onward p q ∧
      Closed .artifactsCopied .artifactCopy st q.diagnostics := by
  refine Ends.get_bind ((attempt_ends _ _).bind ?_)
  rintro done q ⟨hfiled, -, -⟩
  have hq := (Onward.refl hready).filed hfiled
  cases done with
  | false => exact (hq.conclude_ends _ _).mono fun _ _ h => ⟨h.1, h.2.2⟩
  | true =>
    refine ofRead_bind_ends hq.ready.consistent.sound.modules_run ?_
    have hloop : Ends (q.workspace.ast.store.moduleList.forM fun id => do
        copyModule p.config (← Action.ofWorkspace (.ofRead (·.moduleName id)))) q
        fun _ t => Filed q t := by
      refine Ends.forM (.refl q) fun id hid t ht => ?_
      have hvalid : t.workspace.ast.store.isValid id :=
        ht.workspace.ast ▸ Store.isValid_of_mem_moduleList hid
      refine ofRead_bind_ends (Store.moduleName_run hvalid) ?_
      exact (copyModule_ends _ _).mono fun _ _ h => ht.trans h
    refine hloop.bind fun _ t ht => ?_
    exact ((hq.filed ht).conclude_ends _ _).mono fun _ _ h => ⟨h.1, h.2.2⟩

/-- The command that sets the build up. -/
def configureCommand (p : Pipeline) : Command :=
  p.tool.configure p.config.code p.config.cmake p.config.mode

def buildCommand (p : Pipeline) : Command := p.tool.build p.config.cmake p.config.mode

/-- The answer to the first command, given once there is a folder to build in. -/
def configured (launcher : Launcher) (p : Pipeline) : Except LaunchError Unit :=
  (launcher p.launches p.configureCommand
    (left (Disk.createFolder p.config.cmake p.workspace.disk))).1

theorem launch_ends (command : Command) (reason : LaunchError → Diagnostic) :
    Ends (launch launcher command reason) p fun done q =>
      Filed { p with launches := p.launches ++ [command] } q ∧
      (done = true ↔ (launcher p.launches command p.workspace.disk).1 = .ok ()) ∧
      (done = false → q.diagnostics ≠ []) := by
  refine Ends.get_bind ?_
  obtain ⟨answer, disk⟩ := launcher p.launches command p.workspace.disk
  let after : Pipeline :=
    { p with
      workspace := { p.workspace with disk := disk }
      launches := p.launches ++ [command] }
  have hafter : Filed { p with launches := p.launches ++ [command] } after :=
    ⟨⟨⟨rfl, List.prefix_rfl⟩, rfl⟩, rfl, rfl⟩
  cases answer with
  | ok _ => exact ⟨true, after, rfl, hafter, by simp, by simp⟩
  | error e =>
    refine ⟨false, after.reporting (reason e), rfl, hafter.trans (filed_reporting _), by simp, ?_⟩
    simp [diagnostics_reporting]

/-- The commands of a build, in order. -/
def commands (p : Pipeline) : List Command := [p.configureCommand, p.buildCommand]

/-- A pipeline that may come after one that has given no command yet: those given by now are the
first of a build, and the second only after the first was answered well. -/
structure Launched (launcher : Launcher) (p q : Pipeline) : Prop where
  onward : Onward { p with launches := q.launches } q
  given : q.launches <+: p.commands
  answered : q.launches = p.commands → p.configured launcher = .ok ()

theorem Launched.conclude_ends (h : Launched launcher p q)
    (hall : q.diagnostics = [] → q.launches = p.commands) :
    Ends (conclude .compiled .compilation) q fun st r =>
      Launched launcher p r ∧ Closed .compiled .compilation st r.diagnostics ∧
        (st = .compiled → r.launches = p.commands) := by
  refine (h.onward.conclude_ends _ _).mono ?_
  rintro st r ⟨hr, hgrown, hclosed⟩
  have hsame : r.launches = q.launches := hr.launches
  have hr' : Launched launcher p r :=
    ⟨hsame.symm ▸ hr, hsame.symm ▸ h.given, hsame.symm ▸ h.answered⟩
  refine ⟨hr', hclosed, ?_⟩
  rintro rfl
  rcases hclosed with ⟨-, hclean⟩ | ⟨hst, -⟩
  · rw [hclean] at hgrown
    exact hsame.trans (hall (List.prefix_nil.mp hgrown))
  · cases hst

theorem Onward.launched (h : Onward p q) {given : List Command}
    (hr : Filed { q with launches := given } r) : Onward { p with launches := r.launches } r :=
  ⟨hr.workspace.ast ▸ h.ready, h.workspace.trans hr.workspace.toOnward, hr.tool.trans h.tool, rfl⟩

/-- A launch that is left out or goes wrong has been reported. -/
theorem compile_ends (hready : p.workspace.ast.Ready) (hlaunches : p.launches = []) :
    Ends (compile launcher) p fun st q => Launched launcher p q ∧
      Closed .compiled .compilation st q.diagnostics ∧
      (st = .compiled → q.launches = p.commands) := by
  refine Ends.get_bind ((attempt_ends _ _).bind ?_)
  rintro done q ⟨hfiled, hdisk, hlength⟩
  have hq := (Onward.refl hready).filed hfiled
  have hnone : q.launches = [] := hq.launches.trans hlaunches
  cases done with
  | false =>
    refine Launched.conclude_ends ⟨hq.launched (.refl q), ?_, ?_⟩ ?_
    · rw [hnone]
      exact List.nil_prefix
    · rw [hnone]
      nofun
    · intro hclean
      rw [hclean] at hlength
      simp at hlength
  | true =>
    refine (launch_ends p.configureCommand _).bind ?_
    rintro done t ⟨ht, hanswer, hreport⟩
    have hone : t.launches = [p.configureCommand] := by
      rw [ht.launches, hnone]
      rfl
    have hanswered : done = true ↔ p.configured launcher = .ok () := by
      rw [hanswer, configured, hdisk, hq.launches]
    have hon := hq.launched ht
    cases done with
    | false =>
      refine Launched.conclude_ends ⟨hon, ?_, ?_⟩ fun hclean => absurd hclean (hreport rfl)
      · rw [hone]
        exact ⟨[p.buildCommand], rfl⟩
      · rw [hone]
        nofun
    | true =>
      refine (Ends.discard ((launch_ends p.buildCommand _).mono fun _ _ h => h.1)).bind ?_
      intro _ u hu
      have hboth : u.launches = p.commands := by
        rw [hu.launches, hone]
        rfl
      refine Launched.conclude_ends ⟨hon.launched hu, ?_, ?_⟩ fun _ => hboth
      · rw [hboth]
      · exact fun _ => hanswered.mp rfl

theorem step_run {st : BuildState} (h : advance launcher p.state p = .ok st q) :
    step launcher p = .ok st { q with state := st } := by
  unfold step
  rw [get_bind_run, bind_run_ok h]
  rfl

theorem step_run_error {e : Fault} (h : advance launcher p.state p = .error e q) :
    step launcher p = .error e q := by
  unfold step
  rw [get_bind_run, bind_run_error h]

/-- The pipeline after a number of steps. -/
def course (launcher : Launcher) (start : Pipeline) : Nat → Pipeline
  | 0 => start
  | n + 1 => left (step launcher (course launcher start n))

/-- What has been reported by a pipeline in a state. -/
def Reported : BuildState → List Diagnostic → Prop
  | .failed .prepare, reports => reports.length = 1
  | .failed stage, reports => 2 ≤ reports.length ∧ reports.getLast? = some (.stageFailed stage)
  | _, reports => reports = []

/-- Which of the commands have been given by a pipeline in a state. -/
def Given (commands : List Command) : BuildState → List Command → Prop
  | .compiled, given => given = commands
  | .artifactsCopied, given => given = commands
  | .done, given => given = commands
  | .failed .artifactCopy, given => given = commands
  | .failed .compilation, given => given <+: commands
  | _, given => given = []

/-- The number of steps that lead to a state in which a build goes on. -/
def stepsTo : BuildState → Nat
  | .idle => 0
  | .codeGenerated => 1
  | .descriptorGenerated => 2
  | .compiled => 3
  | .artifactsCopied => 4
  | _ => stepLimit

theorem stepsTo_lt {st : BuildState} (h : st.isFinished = false) : stepsTo st < stepLimit := by
  cases st with
  | done => cases h
  | failed stage => cases h
  | _ => decide

/-- Where a build stands after a number of steps. -/
structure Standing (launcher : Launcher) (start : Pipeline) (n : Nat) (p : Pipeline) : Prop where
  ready : p.workspace.ast.Ready
  config : p.config = start.config
  tool : p.tool = start.tool
  reported : Reported p.state p.diagnostics
  given : Given start.commands p.state p.launches
  answered : p.launches = start.commands →
    (course launcher start 2).configured launcher = .ok ()
  goingOn : p.state.isFinished = false → stepsTo p.state = n

theorem Closed.reported {next st : BuildState} {stage : Stage} {reports : List Diagnostic}
    (h : Closed next stage st reports) (hnext : Reported next []) (hstage : stage ≠ .prepare) :
    Reported st reports := by
  rcases h with ⟨rfl, rfl⟩ | ⟨rfl, hlast⟩
  · exact hnext
  · cases stage with
    | prepare => exact absurd rfl hstage
    | codeGeneration => exact hlast
    | descriptorGeneration => exact hlast
    | compilation => exact hlast
    | artifactCopy => exact hlast

namespace Standing

variable {start : Pipeline} {n : Nat} {st : BuildState}

theorem commands_eq (h : Standing launcher start n p) : p.commands = start.commands := by
  simp only [commands, configureCommand, buildCommand, h.config, h.tool]

/-- A step during which no command is given. -/
theorem quiet (h : Standing launcher start n p) (hq : Onward p q)
    (hreported : Reported st q.diagnostics) (hgiven : Given start.commands st p.launches)
    (hgoing : st.isFinished = false → stepsTo st = n + 1) :
    Standing launcher start (n + 1) { q with state := st } where
  ready := hq.ready
  config := hq.workspace.config.trans h.config
  tool := hq.tool.trans h.tool
  reported := hreported
  given := by
    rw [hq.launches]
    exact hgiven
  answered := by
    rw [hq.launches]
    exact h.answered
  goingOn := hgoing

/-- A stage without commands, concluded one way or the other. -/
theorem close {next : BuildState} {stage : Stage} (h : Standing launcher start n p)
    (hq : Onward p q) (hclosed : Closed next stage st q.diagnostics) (hnext : Reported next [])
    (hstage : stage ≠ .prepare) (hsteps : stepsTo next = n + 1)
    (hgiven : Given start.commands next p.launches)
    (hfailed : Given start.commands (.failed stage) p.launches) :
    Standing launcher start (n + 1) { q with state := st } := by
  refine h.quiet hq (hclosed.reported hnext hstage) ?_ ?_
  · rcases hclosed with ⟨rfl, -⟩ | ⟨rfl, -⟩
    · exact hgiven
    · exact hfailed
  · rcases hclosed with ⟨rfl, -⟩ | ⟨rfl, -⟩
    · exact fun _ => hsteps
    · nofun

theorem compiled (h : Standing launcher start n p) (hstate : p.state = .descriptorGenerated)
    (hhere : p = course launcher start 2) (hq : Launched launcher p q)
    (hclosed : Closed .compiled .compilation st q.diagnostics)
    (hall : st = .compiled → q.launches = p.commands) :
    Standing launcher start (n + 1) { q with state := st } where
  ready := hq.onward.ready
  config := hq.onward.workspace.config.trans h.config
  tool := hq.onward.tool.trans h.tool
  reported := hclosed.reported rfl (by decide)
  given := by
    rcases hclosed with ⟨rfl, -⟩ | ⟨rfl, -⟩
    · exact (hall rfl).trans h.commands_eq
    · exact h.commands_eq ▸ hq.given
  answered := by
    intro hboth
    rw [← hhere]
    exact hq.answered (hboth.trans h.commands_eq.symm)
  goingOn := by
    have hn := h.goingOn (by rw [hstate]; rfl)
    rw [hstate] at hn
    rcases hclosed with ⟨rfl, -⟩ | ⟨rfl, -⟩
    · intro _
      rw [← hn]
      rfl
    · nofun

/-- From every state a step leads on, and from the last ones to where it started. -/
theorem advance_ends (h : Standing launcher start n p)
    (hhere : p.state = .descriptorGenerated → p = course launcher start 2) :
    Ends (advance launcher p.state) p fun st q =>
      Standing launcher start (n + 1) { q with state := st } ∧ p.diagnostics <+: q.diagnostics ∧
        (p.state.isFinished = true → { q with state := st } = p) := by
  have hreported := h.reported
  have hgiven := h.given
  have hsteps := h.goingOn
  cases hstate : p.state with
  | idle =>
    rw [hstate] at hreported hgiven hsteps
    refine (generateCode_ends h.ready hreported).mono ?_
    rintro st q ⟨hq, ⟨rfl, hone⟩ | hclosed⟩
    · exact ⟨h.quiet hq hone hgiven nofun, hq.grown, nofun⟩
    · exact ⟨h.close hq hclosed rfl (by decide) (by rw [← hsteps rfl]; rfl) hgiven hgiven, hq.grown,
        nofun⟩
  | codeGenerated =>
    rw [hstate] at hreported hgiven hsteps
    refine (generateDescriptors_ends h.ready).mono ?_
    rintro st q ⟨hq, hclosed⟩
    exact ⟨h.close hq hclosed rfl (by decide) (by rw [← hsteps rfl]; rfl) hgiven hgiven, hq.grown,
      nofun⟩
  | descriptorGenerated =>
    rw [hstate] at hgiven
    refine (compile_ends h.ready hgiven).mono ?_
    rintro st q ⟨hq, hclosed, hall⟩
    exact ⟨h.compiled hstate (hhere hstate) hq hclosed hall, hq.onward.grown, nofun⟩
  | compiled =>
    rw [hstate] at hreported hgiven hsteps
    refine (copyArtifacts_ends h.ready).mono ?_
    rintro st q ⟨hq, hclosed⟩
    exact ⟨h.close hq hclosed rfl (by decide) (by rw [← hsteps rfl]; rfl) hgiven hgiven, hq.grown,
      nofun⟩
  | artifactsCopied =>
    rw [hstate] at hreported hgiven
    exact Ends.pure ⟨h.quiet (.refl h.ready) hreported hgiven nofun, List.prefix_rfl, nofun⟩
  | done =>
    rw [hstate] at hreported hgiven
    refine Ends.pure ⟨h.quiet (.refl h.ready) hreported hgiven nofun, List.prefix_rfl, fun _ => ?_⟩
    rw [← hstate]
  | failed stage =>
    rw [hstate] at hreported hgiven
    refine Ends.pure ⟨h.quiet (.refl h.ready) hreported hgiven nofun, List.prefix_rfl, fun _ => ?_⟩
    rw [← hstate]

end Standing

section Course

variable {start : Pipeline}

/-- A pipeline that has not taken a step, on a tree that generation may start from. -/
structure Fresh (p : Pipeline) : Prop where
  ready : p.workspace.ast.Ready
  state : p.state = .idle
  diagnostics : p.diagnostics = []
  launches : p.launches = []

theorem Fresh.standing (h : Fresh start) : Standing launcher start 0 start where
  ready := h.ready
  config := rfl
  tool := rfl
  reported := by
    rw [h.state]
    exact h.diagnostics
  given := by
    rw [h.state]
    exact h.launches
  answered := by
    rw [h.launches]
    nofun
  goingOn := by
    rw [h.state]
    exact fun _ => rfl

/-- One step of a course. -/
theorem Standing.course_succ {n : Nat} (h : Standing launcher start n (course launcher start n)) :
    step launcher (course launcher start n) =
        .ok (course launcher start (n + 1)).state (course launcher start (n + 1)) ∧
      Standing launcher start (n + 1) (course launcher start (n + 1)) ∧
      (course launcher start n).diagnostics <+: (course launcher start (n + 1)).diagnostics ∧
      ((course launcher start n).state.isFinished = true →
        course launcher start (n + 1) = course launcher start n) := by
  have hhere : (course launcher start n).state = .descriptorGenerated →
      course launcher start n = course launcher start 2 := by
    intro hstate
    have hn := h.goingOn (by rw [hstate]; rfl)
    rw [hstate] at hn
    rw [← hn]
    rfl
  obtain ⟨st, q, hrun, hq, hgrown, hsame⟩ := h.advance_ends hhere
  have hstep := step_run hrun
  have hnext : course launcher start (n + 1) = { q with state := st } := by
    show left (step launcher (course launcher start n)) = _
    rw [hstep]
    rfl
  rw [hnext]
  exact ⟨hstep, hq, hgrown, hsame⟩

theorem Fresh.standing_course (h : Fresh start) (launcher : Launcher) (n : Nat) :
    Standing launcher start n (course launcher start n) := by
  induction n with
  | zero => exact h.standing
  | succ n ih => exact ih.course_succ.2.1

theorem Fresh.course_eq_of_finished (h : Fresh start) {m n : Nat} (hmn : m ≤ n)
    (hm : (course launcher start m).state.isFinished = true) :
    course launcher start n = course launcher start m := by
  induction n, hmn using Nat.le_induction with
  | base => rfl
  | succ n _ ih =>
    rw [← ih] at hm ⊢
    exact (h.standing_course launcher n).course_succ.2.2.2 hm

theorem Fresh.diagnostics_grow (h : Fresh start) {m n : Nat} (hmn : m ≤ n) :
    (course launcher start m).diagnostics <+: (course launcher start n).diagnostics := by
  induction n, hmn using Nat.le_induction with
  | base => exact List.prefix_rfl
  | succ n _ ih => exact ih.trans (h.standing_course launcher n).course_succ.2.2.1

/-- A build that goes on has taken fewer steps than the limit. -/
theorem Fresh.finished (h : Fresh start) (launcher : Launcher) {n : Nat} (hn : stepLimit ≤ n) :
    (course launcher start n).state.isFinished = true := by
  by_contra hgoing
  have hgoing : (course launcher start n).state.isFinished = false := by simpa using hgoing
  have hsteps := (h.standing_course launcher n).goingOn hgoing
  have hlt := stepsTo_lt hgoing
  omega

theorem Fresh.runFor_run (h : Fresh start) {steps n : Nat} (hn : n ≤ stepLimit)
    (hsteps : stepLimit ≤ n + steps) :
    runFor launcher steps (course launcher start n) =
      .ok (course launcher start stepLimit).state (course launcher start stepLimit) := by
  induction steps generalizing n with
  | zero =>
    have hlast : n = stepLimit := by omega
    rw [hlast]
    rfl
  | succ steps ih =>
    show (if (course launcher start n).state.isFinished then _ else _ : Action BuildState) _ = _
    split
    · rename_i hfinished
      rw [h.course_eq_of_finished hn hfinished]
      rfl
    · rename_i hgoing
      have hlt : n < stepLimit := by
        rcases Nat.lt_or_eq_of_le hn with hlt | heq
        · exact hlt
        · exact absurd (h.finished launcher (heq ▸ Nat.le_refl n)) hgoing
      have hstep := (h.standing_course launcher n).course_succ.1
      rw [bind_run_ok (discard_run_ok hstep)]
      exact ih hlt (by omega)

end Course

/-- What can be relied on in a build, however many steps it has taken. -/
structure Orderly (launcher : Launcher) (start : Pipeline) : Prop where
  /-- No step is broken off. -/
  step : ∀ n, step launcher (course launcher start n) =
    .ok (course launcher start (n + 1)).state (course launcher start (n + 1))
  clean : ∀ n, (∀ stage, (course launcher start n).state ≠ .failed stage) →
    (course launcher start n).diagnostics = []
  unprepared : ∀ n, (course launcher start n).state = .failed .prepare →
    (course launcher start n).diagnostics.length = 1
  summary : ∀ n stage, stage ≠ .prepare → (course launcher start n).state = .failed stage →
    2 ≤ (course launcher start n).diagnostics.length ∧
      (course launcher start n).diagnostics.getLast? = some (.stageFailed stage)
  grown : ∀ m n, m ≤ n →
    (course launcher start m).diagnostics <+: (course launcher start n).diagnostics
  launches : ∀ n, (course launcher start n).launches <+:
    [start.tool.configure start.config.code start.config.cmake start.config.mode,
      start.tool.build start.config.cmake start.config.mode]
  /-- The first command is given in the third step. -/
  answered : ∀ n, (course launcher start n).launches.length = 2 →
    (course launcher start 2).configured launcher = .ok ()
  unlaunched : ∀ n, (course launcher start n).state ∈
    [.failed .prepare, .failed .codeGeneration, .failed .descriptorGeneration] →
    (course launcher start n).launches = []
  settled : ∀ n, (course launcher start n).state.isFinished = true →
    course launcher start (n + 1) = course launcher start n
  /-- A run that may take as many steps as it likes takes no more than five. -/
  run : ∀ limit, 5 ≤ limit → runFor launcher limit start =
    .ok (course launcher start 5).state (course launcher start 5)
  finished : (course launcher start 5).state.isFinished = true
  done_iff : (course launcher start 5).state = .done ↔ (course launcher start 5).diagnostics = []

theorem Reported.eq_nil_iff {st : BuildState} {reports : List Diagnostic}
    (h : Reported st reports) : reports = [] ↔ ∀ stage, st ≠ .failed stage := by
  cases st with
  | failed stage =>
    have hsome : reports ≠ [] := by
      rintro rfl
      cases stage with
      | prepare => cases h
      | _ => exact absurd h.1 (by decide)
    exact ⟨fun hnil => absurd hnil hsome, fun hne => absurd rfl (hne stage)⟩
  | _ => exact ⟨fun _ => nofun, fun _ => h⟩

theorem Reported.done_iff {st : BuildState} {reports : List Diagnostic} (h : Reported st reports)
    (hst : st.isFinished = true) : st = .done ↔ reports = [] := by
  rw [h.eq_nil_iff]
  cases st with
  | done => exact ⟨fun _ => nofun, fun _ => rfl⟩
  | failed stage => exact ⟨nofun, fun hne => absurd rfl (hne stage)⟩
  | _ => cases hst

theorem Reported.summary {stage : Stage} {reports : List Diagnostic}
    (h : Reported (.failed stage) reports) (hstage : stage ≠ .prepare) :
    2 ≤ reports.length ∧ reports.getLast? = some (.stageFailed stage) := by
  cases stage with
  | prepare => exact absurd rfl hstage
  | _ => exact h

theorem Given.first {commands given : List Command} {st : BuildState}
    (h : Given commands st given) : given <+: commands := by
  have hnone : ∀ {l : List Command}, l = [] → l <+: commands := by
    rintro _ rfl
    exact List.nil_prefix
  have hall : ∀ {l : List Command}, l = commands → l <+: commands := by
    rintro _ rfl
    exact List.prefix_rfl
  cases st with
  | idle => exact hnone h
  | codeGenerated => exact hnone h
  | descriptorGenerated => exact hnone h
  | compiled => exact hall h
  | artifactsCopied => exact hall h
  | done => exact hall h
  | failed stage =>
    cases stage with
    | prepare => exact hnone h
    | codeGeneration => exact hnone h
    | descriptorGeneration => exact hnone h
    | compilation => exact h
    | artifactCopy => exact hall h

/-- Every build of a tree whose requests were all carried out is orderly, provided that nobody
observes the spellings, and whatever is on the disk and the launcher does. -/
theorem orderly_new (requests : List Request) (h : Ast.carriedOut requests = true)
    (hname : (Ast.reached requests).observersOf .cppName = [])
    (hfragment : (Ast.reached requests).observersOf .cppFragment = [])
    (disk : Disk) (config : Config) (tool : BuildTool) (launcher : Launcher) :
    Orderly launcher (.new (Ast.reached requests) disk config tool) := by
  have hfresh : Fresh (.new (Ast.reached requests) disk config tool) :=
    ⟨⟨Store.consistent_carriedOut h, hname, hfragment⟩, rfl, rfl, rfl⟩
  have hstanding := hfresh.standing_course launcher
  have hfinished := hfresh.finished launcher (Nat.le_refl stepLimit)
  constructor
  · exact fun n => (hstanding n).course_succ.1
  · exact fun n hn => (hstanding n).reported.eq_nil_iff.mpr hn
  · intro n hn
    have hreported := (hstanding n).reported
    rw [hn] at hreported
    exact hreported
  · intro n stage hstage hn
    have hreported := (hstanding n).reported
    rw [hn] at hreported
    exact hreported.summary hstage
  · exact fun m n hmn => hfresh.diagnostics_grow hmn
  · exact fun n => (hstanding n).given.first
  · exact fun n hn => (hstanding n).answered ((hstanding n).given.first.eq_of_length hn)
  · intro n hn
    have hgiven := (hstanding n).given
    simp only [List.mem_cons, List.not_mem_nil, or_false] at hn
    rcases hn with hn | hn | hn <;> (rw [hn] at hgiven; exact hgiven)
  · exact fun n => (hstanding n).course_succ.2.2.2
  · exact fun limit hlimit => hfresh.runFor_run (Nat.zero_le _) (by rwa [Nat.zero_add])
  · exact hfinished
  · exact (hstanding 5).reported.done_iff hfinished

/-- A module with one class. -/
def workshopRun : List Request :=
  [.create, .create, .insert .module ⟨0, 0⟩ .executable, .insert .identifier ⟨0, 0⟩ "Workshop",
    .insert .typeInfo ⟨1, 0⟩ ⟨"Bench", .classType⟩, .insert .classTag ⟨1, 0⟩ (),
    .addChild ⟨0, 0⟩ ⟨1, 0⟩]

/-- A launcher that carries out one command and then no other. -/
def oneShot : Launcher := fun earlier _ disk =>
  (if earlier.isEmpty then .ok () else .error (.notFound "cmake" "worn out"), disk)

def workshop : Pipeline :=
  .new (Ast.reached workshopRun) .empty (.ofProject (.ofString "Workshop")) .standard

theorem orderly_new_one_shot :
    Ast.carriedOut workshopRun = true ∧
    (Ast.reached workshopRun).observersOf .cppName = [] ∧
    (Ast.reached workshopRun).observersOf .cppFragment = [] ∧
    (course oneShot workshop 5).state = .failed .compilation ∧
    (course oneShot workshop 5).launches.length = 2 ∧
    Orderly oneShot workshop := by
  have hrun : Ast.carriedOut workshopRun = true := by decide +kernel
  have hname : (Ast.reached workshopRun).observersOf .cppName = [] :=
    List.isEmpty_iff.mp (by decide +kernel)
  have hfragment : (Ast.reached workshopRun).observersOf .cppFragment = [] :=
    List.isEmpty_iff.mp (by decide +kernel)
  refine ⟨hrun, hname, hfragment, by decide +kernel, by decide +kernel, ?_⟩
  exact orderly_new workshopRun hrun hname hfragment .empty (.ofProject (.ofString "Workshop"))
    .standard oneShot

end ModuleCompiler.Pipeline
