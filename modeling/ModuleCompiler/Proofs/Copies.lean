import ModuleCompiler.Proofs.Frames

/-!
The copies at the end of a build. Every module gets its turn, in the order of the query, and finds
the files as the turns before it left them, whatever became of these. A module whose binaries are
not there fails on its turn and changes no file, so all goes on as if it had not been asked.
-/

namespace ModuleCompiler

section Turns

variable (config : Config) {names : List String} {d : Disk} {name : String}

/-- What is done on the turn of a module. -/
def copyBinaries (name : String) : Disk.FolderAction Unit :=
  Disk.copyFolder (Pipeline.builtFolder config name) (Pipeline.artifactFolder config name)

/-- The modules in order, each with the files it finds on its turn. -/
def turns : List String → Disk → List (String × Disk)
  | [], _ => []
  | name :: rest, d => (name, d) :: turns rest (left (copyBinaries config name d))

/-- The files after the turns of all modules. -/
def afterTurns (names : List String) (d : Disk) : Disk :=
  names.foldl (fun d name => left (copyBinaries config name d)) d

/-- What is reported of a turn, if it fails. -/
def turnReport? (turn : String × Disk) : Option Diagnostic :=
  match copyBinaries config turn.1 turn.2 with
  | .ok _ _ => none
  | .error e _ => some (.moduleNotCopied turn.1 e)

def turnReports (names : List String) (d : Disk) : List Diagnostic :=
  (turns config names d).filterMap (turnReport? config)

/-- Whether the binaries of the module are there on its turn. -/
def hasBinaries (turn : String × Disk) : Bool :=
  turn.2.isFolder (Pipeline.builtFolder config turn.1)

/-- The modules whose binaries are there on their turns. -/
def namesWithBinaries (names : List String) (d : Disk) : List String :=
  ((turns config names d).filter (hasBinaries config)).map Prod.fst

theorem map_fst_turns (names : List String) (d : Disk) :
    (turns config names d).map Prod.fst = names := by
  induction names generalizing d with
  | nil => rfl
  | cons name rest ih => rw [turns, List.map_cons, ih]

theorem copyBinaries_missing (h : hasBinaries config (name, d) = false) :
    copyBinaries config name d = .error (.missing (Pipeline.builtFolder config name)) d :=
  Disk.copyFolder_missing h _

/-- A module without binaries is passed over, with the files as they were. -/
theorem namesWithBinaries_cons (name : String) (rest : List String) (d : Disk) :
    namesWithBinaries config (name :: rest) d =
      if hasBinaries config (name, d) then
        name :: namesWithBinaries config rest (left (copyBinaries config name d))
      else namesWithBinaries config rest d := by
  unfold namesWithBinaries
  rw [turns, List.filter_cons]
  cases hthere : hasBinaries config (name, d) with
  | true => rfl
  | false =>
    rw [copyBinaries_missing config hthere]
    rfl

theorem turns_namesWithBinaries (names : List String) (d : Disk) :
    turns config (namesWithBinaries config names d) d =
      (turns config names d).filter (hasBinaries config) := by
  induction names generalizing d with
  | nil => rfl
  | cons name rest ih =>
    rw [namesWithBinaries_cons, turns, List.filter_cons]
    cases hthere : hasBinaries config (name, d) with
    | true => rw [if_pos rfl, if_pos rfl, turns, ih]
    | false =>
      rw [copyBinaries_missing config hthere]
      exact ih d

theorem afterTurns_cons (name : String) (rest : List String) (d : Disk) :
    afterTurns config (name :: rest) d =
      afterTurns config rest (left (copyBinaries config name d)) := rfl

theorem afterTurns_namesWithBinaries (names : List String) (d : Disk) :
    afterTurns config (namesWithBinaries config names d) d = afterTurns config names d := by
  induction names generalizing d with
  | nil => rfl
  | cons name rest ih =>
    rw [namesWithBinaries_cons]
    cases hthere : hasBinaries config (name, d) with
    | true => rw [if_pos rfl, afterTurns_cons, afterTurns_cons, ih]
    | false =>
      rw [afterTurns_cons, copyBinaries_missing config hthere]
      exact ih d

end Turns

namespace Pipeline

variable {p q : Pipeline} {launcher : Launcher} {st : BuildState}

/-- The pipeline after the turns of some modules. -/
def afterCopies (config : Config) (names : List String) (p : Pipeline) : Pipeline :=
  { p with
    workspace := { p.workspace with
      disk := afterTurns config names p.workspace.disk
      compilation := { p.workspace.compilation with
        diagnostics := p.diagnostics ++ turnReports config names p.workspace.disk } } }

theorem turnReports_cons (config : Config) (name : String) (rest : List String) (d : Disk) :
    turnReports config (name :: rest) d = (turnReport? config (name, d)).toList ++
      turnReports config rest (left (copyBinaries config name d)) := by
  unfold turnReports
  rw [turns, List.filterMap_cons]
  cases turnReport? config (name, d) <;> rfl

theorem copyModule_run (config : Config) (name : String) (p : Pipeline) :
    copyModule config name p = .ok () (p.afterCopies config [name]) := by
  unfold afterCopies
  rw [turnReports_cons, afterTurns_cons]
  unfold copyModule turnReport? copyBinaries
  cases hrun : Disk.copyFolder (builtFolder config name) (artifactFolder config name)
      p.workspace.disk with
  | ok u d =>
    rw [discard_run_ok (attempt_run_ok hrun)]
    simp [afterTurns, turnReports, turns, left, onDisk, diagnostics]
  | error e d =>
    rw [discard_run_ok (attempt_run_error hrun)]
    simp [afterTurns, turnReports, turns, left, onDisk, diagnostics, reporting, Compilation.report]

theorem afterCopies_cons (config : Config) (name : String) (rest : List String) :
    p.afterCopies config (name :: rest) =
      (p.afterCopies config [name]).afterCopies config rest := by
  simp only [afterCopies, turnReports_cons, afterTurns_cons, diagnostics, List.append_assoc]
  rfl

/-- By induction on the modules that have not had their turn. -/
theorem copyModules_run (config : Config) {ids : List Entity}
    (hids : ∀ id ∈ ids, p.workspace.ast.store.isValid id) :
    (ids.forM fun id => do
        copyModule config (← Action.ofWorkspace (.ofRead (·.moduleName id)))) p =
      .ok () (p.afterCopies config (ids.map p.workspace.ast.store.nameOf)) := by
  induction ids generalizing p with
  | nil =>
    simp [afterCopies, turnReports, turns, afterTurns, diagnostics]
    rfl
  | cons id rest ih =>
    have hread : Action.ofWorkspace (.ofRead (·.moduleName id)) p =
        .ok (p.workspace.ast.store.nameOf id) p :=
      read_run (Store.moduleName_run (hids id (by simp)))
    have hfirst := (bind_run_ok hread).trans
      (copyModule_run config (p.workspace.ast.store.nameOf id) p)
    rw [List.map_cons, afterCopies_cons]
    exact (bind_run_ok hfirst).trans (ih fun x hx => hids x (by simp [hx]))

theorem copyArtifacts_run (h : p.workspace.ast.store.Sound) {d : Disk}
    (hcode : Disk.copyFolder p.config.code p.config.binaries p.workspace.disk = .ok () d) :
    copyArtifacts p = conclude .artifactsCopied .artifactCopy ((p.onDisk d).afterCopies p.config
      (p.workspace.ast.store.moduleList.map p.workspace.ast.store.nameOf)) := by
  have hmodules : Action.ofWorkspace (.ofRead Store.modules) (p.onDisk d) =
      .ok p.workspace.ast.store.moduleList (p.onDisk d) := read_run h.modules_run
  have hcopies := copyModules_run (p := p.onDisk d) p.config
    fun id hid => Store.isValid_of_mem_moduleList hid
  unfold copyArtifacts
  rw [get_bind_run, bind_run_ok (attempt_run_ok hcode)]
  exact (bind_run_ok hmodules).trans (bind_run_ok hcopies)

/-- A query for modules finds living ones, so the last stage is never broken off. -/
theorem copyArtifacts_done (h : p.workspace.ast.store.Sound) :
    ∃ st q, copyArtifacts p = .ok st q := by
  have hconclude : ∀ r, ∃ st q, conclude .artifactsCopied .artifactCopy r = .ok st q := by
    intro r
    rw [conclude_run]
    split
    · exact ⟨_, _, rfl⟩
    · exact ⟨_, _, rfl⟩
  cases hcode : Disk.copyFolder p.config.code p.config.binaries p.workspace.disk with
  | ok u d =>
    rw [copyArtifacts_run h hcode]
    exact hconclude _
  | error e d =>
    unfold copyArtifacts
    rw [get_bind_run, bind_run_ok (attempt_run_error hcode)]
    exact hconclude _

/-- Whatever a build does keeps the tree sound. -/
theorem upholds_sound (c : Config) (launcher : Launcher) :
    Upholds (·.store.Sound) (fun _ => True) c launcher where
  tree _ hw := Workspace.ast_generateCode Store.stable_sound.spellPrimitives
    Store.stable_sound.spellParameters hw
  binaries := .trivial _
  code := .trivial _
  saves _ _ _ _ _ := .trivial _
  root _ := .trivial _
  cmake := .trivial _
  launches _ _ _ _ := True.intro
  copies := .trivial _
  artifacts _ _ := .trivial _

/-- A stage that answers that all is compiled only if nothing has been reported. -/
def Vouches (action : Action BuildState) : Prop :=
  ∀ ⦃p q⦄, action p = .ok .compiled q → q.diagnostics = []

namespace Vouches

theorem pure {next : BuildState} (h : next ≠ .compiled) : Vouches (Pure.pure next) :=
  fun _ _ hrun => absurd (EStateM.Result.ok.inj hrun).1 h

theorem bind {α : Type} {action : Action α} {next : α → Action BuildState}
    (h : ∀ a, Vouches (next a)) : Vouches (action >>= next) := by
  intro p q hrun
  obtain ⟨a, t, -, hnext⟩ := bind_eq_ok hrun
  exact h a hnext

theorem conclude (next : BuildState) (stage : Stage) : Vouches (conclude next stage) := by
  intro p q hrun
  obtain ⟨hclean, -, rfl⟩ := clean_of_conclude hrun nofun
  exact hclean

theorem advance (launcher : Launcher) (start : BuildState) : Vouches (advance launcher start) := by
  cases start with
  | idle =>
    refine bind fun done => ?_
    dsimp only
    split
    · exact pure nofun
    · refine bind fun _ => bind fun made => ?_
      split
      · exact bind fun _ => conclude _ _
      · exact conclude _ _
  | codeGenerated => exact bind fun _ => conclude _ _
  | descriptorGenerated =>
    refine bind fun _ => bind fun made => ?_
    dsimp only
    split
    · refine bind fun configured => ?_
      split
      · exact bind fun _ => conclude _ _
      · exact conclude _ _
    · exact conclude _ _
  | compiled =>
    refine bind fun _ => bind fun copied => ?_
    dsimp only
    split
    · exact bind fun _ => bind fun _ => conclude _ _
    · exact conclude _ _
  | artifactsCopied => exact pure nofun
  | done => exact pure nofun
  | failed stage => exact pure nofun

end Vouches

/-- A pipeline that has come about by steps, some perhaps broken off, after any run of requests.
Between the steps the files may change, and another tool may be chosen. -/
inductive Underway : Pipeline → Prop
  | new (requests : List Request) (disk : Disk) (config : Config) (tool : BuildTool) :
      Underway (.new (Ast.reached requests) disk config tool)
  | step {p : Pipeline} (launcher : Launcher) (h : Underway p) : Underway (left (step launcher p))
  | changed {p : Pipeline} (disk : Disk) (tool : BuildTool) (h : Underway p) :
      Underway { p.onDisk disk with tool := tool }

/-- What holds of a build under way: its tree is sound, and it is compiled only without reports. -/
structure Compilable (p : Pipeline) : Prop where
  sound : p.workspace.ast.store.Sound
  clean : p.state = .compiled → p.diagnostics = []

theorem Compilable.step (h : Compilable p) (launcher : Launcher) :
    Compilable (left (step launcher p)) := by
  have hleft := ((upholds_sound p.config launcher).advance p.state).left
    ⟨h.sound, rfl, trivial, rfl⟩
  cases hrun : Pipeline.advance launcher p.state p with
  | ok next q =>
    rw [hrun] at hleft
    rw [step_run hrun]
    refine ⟨hleft.tree, fun hstate => ?_⟩
    obtain rfl : next = .compiled := hstate
    have hclean := Vouches.advance launcher p.state hrun
    exact hclean
  | error e q =>
    rw [hrun] at hleft
    rw [step_run_error hrun]
    refine ⟨hleft.tree, fun hstate => ?_⟩
    -- The only stage that starts from there is never broken off.
    rw [← hleft.state, hstate] at hrun
    obtain ⟨next, r, hdone⟩ := copyArtifacts_done h.sound
    cases hrun.symm.trans hdone

theorem Underway.compilable (h : Underway p) : Compilable p := by
  induction h with
  | new requests disk config tool => exact ⟨Store.sound_reached requests, nofun⟩
  | step launcher _ ih => exact ih.step launcher
  | changed disk tool _ ih => exact ⟨ih.sound, ih.clean⟩

/-- The last stage on a sound tree of which nothing has been reported. -/
theorem step_of_compiled (h : p.workspace.ast.store.Sound) (hstate : p.state = .compiled)
    (hclean : p.diagnostics = []) {d : Disk}
    (hcode : Disk.copyFolder p.config.code p.config.binaries p.workspace.disk = .ok () d)
    (launcher : Launcher) {names : List String}
    (hnames : names = p.workspace.ast.store.moduleList.map p.workspace.ast.store.nameOf) :
    ∃ q, step launcher p = .ok q.state q ∧ q.workspace.ast = p.workspace.ast ∧
      q.workspace.disk = afterTurns p.config names d ∧
      (turnReports p.config names d = [] ∧ q.diagnostics = [] ∧ q.state = .artifactsCopied ∨
        turnReports p.config names d ≠ [] ∧ q.state = .failed .artifactCopy ∧
          q.diagnostics = turnReports p.config names d ++ [.stageFailed .artifactCopy]) := by
  let copied : Pipeline := (p.onDisk d).afterCopies p.config names
  have hreports : copied.diagnostics = turnReports p.config names d := by
    show p.diagnostics ++ _ = _
    rw [hclean]
    rfl
  have hadvance : advance launcher p.state p = conclude .artifactsCopied .artifactCopy copied := by
    rw [hstate]
    subst hnames
    exact copyArtifacts_run h hcode
  rw [conclude_run, hreports] at hadvance
  by_cases hnone : turnReports p.config names d = []
  · rw [if_pos hnone] at hadvance
    exact ⟨{ copied with state := .artifactsCopied }, step_run hadvance, rfl, rfl,
      Or.inl ⟨hnone, hreports.trans hnone, rfl⟩⟩
  · rw [if_neg hnone] at hadvance
    refine ⟨{ copied.reporting (.stageFailed .artifactCopy) with state := .failed .artifactCopy },
      step_run hadvance, rfl, rfl, Or.inr ⟨hnone, rfl, ?_⟩⟩
    show copied.diagnostics ++ _ = _
    rw [hreports]

/-- Whatever the files are when everything is compiled, if the code can be copied: every module
has its turn, in the order of the query, on the files as the turns before it left them. One report
is made of each turn that fails, in that order, and the summary follows if there is any; the state
is `artifactsCopied` if there is none. A module without binaries on its turn leaves the files as
they are, so the turns of the others, and the files at the end, are the same without it. -/
theorem copies_isolated (hp : Underway p) (hstate : p.state = .compiled) {d : Disk}
    (hcode : Disk.copyFolder p.config.code p.config.binaries p.workspace.disk = .ok () d)
    (launcher : Launcher) :
    ∃ ids names q, p.workspace.ast.store.modules = .ok ids ∧
      List.Forall₂ (fun id name => p.workspace.ast.store.moduleName id = .ok name) ids names ∧
      step launcher p = .ok q.state q ∧ q.workspace.ast = p.workspace.ast ∧
      (turns p.config names d).map Prod.fst = names ∧
      q.workspace.disk = afterTurns p.config names d ∧
      p.diagnostics = [] ∧
      (turnReports p.config names d = [] ∧ q.diagnostics = [] ∧ q.state = .artifactsCopied ∨
        turnReports p.config names d ≠ [] ∧ q.state = .failed .artifactCopy ∧
          q.diagnostics = turnReports p.config names d ++ [.stageFailed .artifactCopy]) ∧
      (∀ turn ∈ turns p.config names d, hasBinaries p.config turn = false →
        copyBinaries p.config turn.1 turn.2 =
          .error (.missing (builtFolder p.config turn.1)) turn.2) ∧
      turns p.config (namesWithBinaries p.config names d) d =
        (turns p.config names d).filter (hasBinaries p.config) ∧
      afterTurns p.config (namesWithBinaries p.config names d) d = q.workspace.disk := by
  have h := hp.compilable
  obtain ⟨q, hstep, hast, hdisk, hreports⟩ :=
    step_of_compiled h.sound hstate (h.clean hstate) hcode launcher rfl
  refine ⟨_, _, q, h.sound.modules_run, ?_, hstep, hast, map_fst_turns _ _ _, hdisk,
    h.clean hstate, hreports, ?_, turns_namesWithBinaries _ _ _, ?_⟩
  · rw [List.forall₂_map_right_iff, List.forall₂_same]
    exact fun id hid => Store.moduleName_run (Store.isValid_of_mem_moduleList hid)
  · exact fun turn _ hmissing => copyBinaries_missing p.config hmissing
  · rw [hdisk]
    exact afterTurns_namesWithBinaries _ _ _

theorem Underway.course (h : Underway p) (launcher : Launcher) (n : Nat) :
    Underway (course launcher p n) := by
  induction n with
  | zero => exact h
  | succ n ih => exact ih.step launcher

/-- A program and two libraries. -/
def fleetRun : List Request :=
  [.create, .create, .create, .insert .module ⟨0, 0⟩ .executable,
    .insert .module ⟨1, 0⟩ .staticLibrary, .insert .module ⟨2, 0⟩ .staticLibrary,
    .insert .identifier ⟨0, 0⟩ "App", .insert .identifier ⟨1, 0⟩ "Core",
    .insert .identifier ⟨2, 0⟩ "Lib"]

/-- A launcher to which every command is fine. -/
def willing : Launcher := fun _ _ disk => (.ok (), disk)

/-- The files when everything is compiled, but nothing was built for the second module. -/
def yard : Disk where
  entries := [
    (["P".toList], .folder),
    (["P".toList, "Intermediates".toList], .folder),
    (["P".toList, "Intermediates".toList, "CMake".toList], .folder),
    (["P".toList, "Intermediates".toList, "CMake".toList, "App".toList], .folder),
    (["P".toList, "Intermediates".toList, "CMake".toList, "App".toList, "Release".toList], .folder),
    (["P".toList, "Intermediates".toList, "CMake".toList, "App".toList, "Release".toList,
      "App".toList], .file "binary".toUTF8),
    (["P".toList, "Intermediates".toList, "CMake".toList, "Lib".toList], .folder),
    (["P".toList, "Intermediates".toList, "CMake".toList, "Lib".toList, "Release".toList], .folder),
    (["P".toList, "Intermediates".toList, "CMake".toList, "Lib".toList, "Release".toList,
      "Lib.a".toList], .file "library".toUTF8),
    (["P".toList, "Intermediates".toList, "Code".toList], .folder)]

def fleet : Pipeline :=
  { (course willing (.new (Ast.reached fleetRun) .empty (.ofProject (.ofString "P")) .standard)
      3).onDisk yard with tool := .standard }

theorem copies_isolated_fleet :
    Underway fleet ∧ fleet.state = .compiled ∧
    ∃ d q, Disk.copyFolder fleet.config.code fleet.config.binaries fleet.workspace.disk =
        .ok () d ∧
      step willing fleet = .ok q.state q ∧ q.state = .failed .artifactCopy ∧
      q.diagnostics = [.moduleNotCopied "Core" (.missing (builtFolder fleet.config "Core")),
        .stageFailed .artifactCopy] ∧
      q.workspace.disk.isFile (.ofString "P/Binaries/App/Bin/App") = true ∧
      q.workspace.disk.isFile (.ofString "P/Binaries/Lib/Bin/Lib.a") = true ∧
      ∃ names, q.workspace.disk = afterTurns fleet.config names d ∧
        afterTurns fleet.config (namesWithBinaries fleet.config names d) d = q.workspace.disk := by
  have hunderway : Underway fleet :=
    .changed yard .standard ((Underway.new fleetRun .empty _ .standard).course willing 3)
  have hstate : fleet.state = .compiled := by decide +kernel
  have hcode := eq_ok_left (r := Disk.copyFolder fleet.config.code fleet.config.binaries
    fleet.workspace.disk) (by decide +kernel)
  have hend : (left (step willing fleet)).state = .failed .artifactCopy ∧
      (left (step willing fleet)).diagnostics =
        [.moduleNotCopied "Core" (.missing (builtFolder fleet.config "Core")),
          .stageFailed .artifactCopy] ∧
      (left (step willing fleet)).workspace.disk.isFile (.ofString "P/Binaries/App/Bin/App") =
        true ∧
      (left (step willing fleet)).workspace.disk.isFile (.ofString "P/Binaries/Lib/Bin/Lib.a") =
        true := by
    decide +kernel
  obtain ⟨-, names, q, -, -, hstep, -, -, hdisk, -, -, -, -, hpresent⟩ :=
    copies_isolated hunderway hstate hcode willing
  rw [hstep] at hend
  exact ⟨hunderway, hstate, _, q, hcode, hstep, hend.1, hend.2.1, hend.2.2.1, hend.2.2.2, names,
    hdisk, hpresent⟩

end Pipeline

end ModuleCompiler
