import ModuleCompiler.Proofs.Build

/-!
A build is never broken off. What carries this is that nothing a build asks about is stale: queries
find living entities that hold all they were asked to hold, links lead to living entities, and a
declaration gives back the level of indentation it took. All of it holds wherever both sides of
every link agree, whatever the entities hold, so it is kept by a step from any state, with any
reports made and any commands given before.
-/

namespace ModuleCompiler

namespace Writer

variable {w : Writer}

theorem level_lines (ls : List String) : (w.lines ls).level = w.level := by
  unfold lines
  induction ls generalizing w with
  | nil => rfl
  | cons l rest ih => exact ih

theorem dedent_of_level {n : Nat} (h : w.level = n + 1) :
    w.dedent = .ok { w with level := n } := by
  simp [dedent, h]

end Writer

namespace Store

variable {s : Store} {id : Entity}

/-- A component that can be read: the entity is alive and holds it. -/
def Readable (s : Store) (k : Kind) (id : Entity) : Prop :=
  s.has k id = .ok true ∧ ∃ v, s.require k id = .ok v

/-- A store of which nothing that a build asks is refused. -/
structure Answers (s : Store) : Prop where
  /-- All that a query asks for can be read of what it finds. -/
  query : ∀ q : Query, ∃ ids, q.ids s = .ok ids ∧ ∀ id ∈ ids, ∀ k ∈ q.kinds, s.Readable k id
  parent : ∀ id, s.isValid id → ∃ up, s.parent? id = .ok up ∧ ∀ x ∈ up, s.isValid x
  children : ∀ id, s.isValid id → ∃ down, s.children id = .ok down ∧ ∀ x ∈ down, s.isValid x
  name : ∀ id, s.isValid id → ∃ name, s.moduleName id = .ok name
  enclosing : ∀ id, s.isValid id →
    ∃ around, s.enclosingModule id = .ok around ∧ ∀ m ∈ around, s.Readable .module m
  project : ∃ project, s.projectModule = .ok project ∧ ∀ m ∈ project, s.Readable .module m
  /-- The primitive types may have been ended since they were registered. -/
  memberType : ∃ type, s.memberType = .ok type
  types : ∀ tag module, ∃ ids, s.moduleTypes tag module = .ok ids ∧
    ∀ id ∈ ids, s.Readable .typeInfo id
  functions : ∀ module, s.isValid module → ∃ ids, s.moduleFunctions module = .ok ids ∧
    ∀ id ∈ ids, s.Readable .identifier id ∧ ∃ text, s.signature id = .ok text
  /-- A declaration may start at any level, and ends at the same. -/
  declaration : ∀ w id, s.Readable .typeInfo id →
    ∃ v, s.declareType w id = .ok v ∧ v.level = w.level
  header : ∀ module, s.isValid module → ∃ text, s.header module = .ok text
  descriptor : ∀ module name, s.Readable .module module →
    ∃ target text, s.require .module module = .ok target ∧
      Descriptor.module name target = .ok text

theorem Sound.readable (h : s.Sound) {k : Kind} (hid : s.has k id = .ok true) :
    s.Readable k id := by
  obtain ⟨v, -, hv⟩ := h.held_of_has hid
  exact ⟨hid, v, hv⟩

theorem Sound.readable_of_mem_scan (h : s.Sound) {q : Query} {k : Kind} (hid : id ∈ q.scan s)
    (hk : k ∈ q.kinds) : s.Readable k id :=
  h.readable ((Query.mem_scan.mp hid).2 k hk)

theorem Sound.readable_module (h : s.Sound) (hid : id ∈ s.moduleList) : s.Readable .module id :=
  h.readable (has_module_of_mem_moduleList hid)

/-- Members are indented by one level, which is there to be given back. -/
theorem Sound.declareType_level (h : s.Sound) (hid : s.Readable .typeInfo id) (w : Writer) :
    ∃ v, s.declareType w id = .ok v ∧ v.level = w.level := by
  have hvalid := ((has_eq_true s _ id).mp hid.1).1
  have hmembers : mapChecked s.variableName? (s.childList id) = .ok ((s.childList id).map _) :=
    mapChecked_run fun member _ => Query.get?_run _ _ _
  unfold declareType
  rw [h.memberType_run, h.typeName_run hid.1, children_of_isValid hvalid]
  simp only [bind, Except.bind, hmembers]
  rw [Writer.dedent_of_level (n := w.level) (Writer.level_lines _)]
  exact ⟨_, rfl, rfl⟩

theorem Consistent.answers (h : s.Consistent) : s.Answers where
  query q := ⟨_, Query.ids_run h.sound, fun _ hid _ hk => h.sound.readable_of_mem_scan hid hk⟩
  parent id hid := ⟨_, parent?_of_isValid hid, fun _ hx => h.isValid_parent hx⟩
  children id hid := by
    refine ⟨_, children_of_isValid hid, fun x hx => ?_⟩
    exact h.sound.isValid_of_up (h.up_of_mem_childList hx)
  name id hid := ⟨_, moduleName_run hid⟩
  enclosing id hid := by
    obtain ⟨around, haround, hmodule⟩ := h.anchored.enclosingModule_ok hid
    exact ⟨around, haround, fun m hm => h.sound.readable (hmodule m hm)⟩
  project := by
    refine ⟨_, h.anchored.projectModule_run, fun m hm => ?_⟩
    exact h.sound.readable_module (mem_moduleList_of_projectOf hm)
  memberType := ⟨_, h.sound.memberType_run⟩
  types tag module := by
    refine ⟨_, h.sound.moduleTypes_run tag, fun id hid => ?_⟩
    exact h.sound.readable_of_mem_scan (List.mem_filter.mp hid).1 (by simp [Query.kinds])
  functions module hmodule := by
    refine ⟨_, h.moduleFunctions_run hmodule, fun id hid => ?_⟩
    have hmatch := of_decide_eq_true (List.mem_filter.mp hid).2
    have hname := h.sound.readable_of_mem_scan (k := .identifier) hmatch (by simp [Query.kinds])
    exact ⟨hname, _, h.sound.signature_run hname.1⟩
  declaration w id hid := h.sound.declareType_level hid w
  header module hmodule := ⟨_, h.header_run hmodule⟩
  descriptor module name hmodule := by
    obtain ⟨-, target, htarget⟩ := hmodule
    obtain ⟨text, htext⟩ := Workspace.module_run name target
    exact ⟨target, text, htarget, htext⟩

end Store

namespace Pipeline

variable {p q : Pipeline} {launcher : Launcher} {st : BuildState}

/-- The way a stage may end, if it is never broken off: on a tree that the next stage may start
from, and closer to the end of the build. -/
def Proceeds (st next : BuildState) (q : Pipeline) : Prop :=
  q.workspace.ast.Ready ∧ (st.isFinished = false → stepsTo st < stepsTo next)

theorem conclude_proceeds (hready : q.workspace.ast.Ready) {next : BuildState}
    (hnext : stepsTo st < stepsTo next) (stage : Stage) (hlt : stepsTo st < stepLimit) :
    Ends (conclude next stage) q (Proceeds st) := by
  refine ((Onward.refl hready).conclude_ends next stage).mono ?_
  rintro after r ⟨hr, -, hclosed⟩
  refine ⟨hr.ready, fun _ => ?_⟩
  rcases hclosed with ⟨rfl, -⟩ | ⟨rfl, -⟩
  · exact hnext
  · exact hlt

/-- With reports already made, the first stage fails before it does anything. -/
theorem generateCode_proceeds (hready : p.workspace.ast.Ready) :
    Ends generateCode p (Proceeds .idle) := by
  by_cases hclean : p.diagnostics = []
  · refine (generateCode_ends hready hclean).mono ?_
    rintro next q ⟨hq, ⟨rfl, -⟩ | ⟨rfl, -⟩ | ⟨rfl, -⟩⟩
    all_goals exact ⟨hq.ready, fun _ => by decide⟩
  · have hprepare : prepare p = .ok false p := by
      have herrors : p.hasErrors = true := by
        rw [hasErrors_eq]
        simpa using hclean
      show (if p.hasErrors then _ else _ : Action Bool) p = _
      rw [if_pos herrors]
      rfl
    refine ⟨.failed .prepare, p, ?_, hready, fun _ => by decide⟩
    exact bind_run_ok hprepare

theorem generateDescriptors_proceeds (hready : p.workspace.ast.Ready) :
    Ends generateDescriptors p (Proceeds .codeGenerated) := by
  refine (generateDescriptors_ends hready).mono ?_
  rintro next q ⟨hq, ⟨rfl, -⟩ | ⟨rfl, -⟩⟩
  all_goals exact ⟨hq.ready, fun _ => by decide⟩

/-- Neither a folder that is not made nor an answer of the launcher breaks the stage off. -/
theorem compile_proceeds (hready : p.workspace.ast.Ready) :
    Ends (compile launcher) p (Proceeds .descriptorGenerated) := by
  refine Ends.get_bind ((attempt_ends _ _).bind ?_)
  rintro made q ⟨hq, -, -⟩
  have hready : q.workspace.ast.Ready := hq.workspace.ast ▸ hready
  cases made with
  | false => exact conclude_proceeds hready (by decide) _ (by decide)
  | true =>
    refine (launch_ends _ _).bind ?_
    rintro configured r ⟨hr, -, -⟩
    have hready : r.workspace.ast.Ready := hr.workspace.ast ▸ hready
    cases configured with
    | false => exact conclude_proceeds hready (by decide) _ (by decide)
    | true =>
      refine (Ends.discard ((launch_ends _ _).mono fun _ _ h => h.1)).bind ?_
      intro _ u hu
      have hready : u.workspace.ast.Ready := hu.workspace.ast ▸ hready
      exact conclude_proceeds hready (by decide) _ (by decide)

theorem copyArtifacts_proceeds (hready : p.workspace.ast.Ready) :
    Ends copyArtifacts p (Proceeds .compiled) := by
  refine (copyArtifacts_ends hready).mono ?_
  rintro next q ⟨hq, ⟨rfl, -⟩ | ⟨rfl, -⟩⟩
  all_goals exact ⟨hq.ready, fun _ => by decide⟩

/-- No stage is broken off, and none leads back. -/
theorem advance_proceeds (launcher : Launcher) (hready : p.workspace.ast.Ready) (st : BuildState) :
    Ends (advance launcher st) p (Proceeds st) := by
  cases st with
  | idle => exact generateCode_proceeds hready
  | codeGenerated => exact generateDescriptors_proceeds hready
  | descriptorGenerated => exact compile_proceeds hready
  | compiled => exact copyArtifacts_proceeds hready
  | artifactsCopied => exact Ends.pure ⟨hready, fun _ => by decide⟩
  | done => exact Ends.pure ⟨hready, nofun⟩
  | failed stage => exact Ends.pure ⟨hready, nofun⟩

theorem step_proceeds (launcher : Launcher) (hready : p.workspace.ast.Ready) :
    Ends (step launcher) p fun st q => st = q.state ∧ Proceeds p.state q.state q := by
  obtain ⟨st, q, hrun, hq⟩ := advance_proceeds launcher hready p.state
  refine ⟨st, { q with state := st }, ?_, rfl, hq⟩
  show (advance launcher p.state >>= _) p = _
  rw [bind_run_ok hrun]
  rfl

/-- With as many steps as lead from a state to the end, the end is reached. -/
theorem runFor_finishes (launcher : Launcher) (hready : p.workspace.ast.Ready) {steps : Nat}
    (hsteps : stepLimit ≤ stepsTo p.state + steps) :
    Ends (runFor launcher steps) p fun st _ => st.isFinished = true := by
  induction steps generalizing p with
  | zero =>
    refine ⟨p.state, p, rfl, ?_⟩
    by_contra hgoing
    have hlt := stepsTo_lt (by simpa using hgoing)
    omega
  | succ steps ih =>
    by_cases hfinished : p.state.isFinished = true
    · refine ⟨p.state, p, ?_, hfinished⟩
      show (if p.state.isFinished then _ else _ : Action BuildState) _ = _
      rw [if_pos hfinished]
      rfl
    · obtain ⟨st, q, hrun, -, hq, hcloser⟩ := step_proceeds launcher hready
      have hlt := hcloser (by simpa using hfinished)
      obtain ⟨last, r, hrest, hlast⟩ := ih hq (by omega)
      refine ⟨last, r, ?_, hlast⟩
      show (if p.state.isFinished then _ else _ : Action BuildState) _ = _
      rw [if_neg hfinished, bind_run_ok (discard_run_ok hrun)]
      exact hrest

section Course

variable {start : Pipeline}

theorem course_succ_proceeds {n : Nat} (hready : (course launcher start n).workspace.ast.Ready) :
    step launcher (course launcher start n) =
        .ok (course launcher start (n + 1)).state (course launcher start (n + 1)) ∧
      (course launcher start (n + 1)).workspace.ast.Ready := by
  obtain ⟨st, q, hrun, rfl, hq⟩ := step_proceeds launcher hready
  have hnext : course launcher start (n + 1) = q := by
    show left (step launcher (course launcher start n)) = q
    rw [hrun]
    rfl
  rw [hnext]
  exact ⟨hrun, hq.1⟩

theorem ready_course (hready : start.workspace.ast.Ready) (launcher : Launcher) (n : Nat) :
    (course launcher start n).workspace.ast.Ready := by
  induction n with
  | zero => exact hready
  | succ n ih => exact (course_succ_proceeds ih).2

end Course

/-- A build of which no part is refused, however many steps it has taken. -/
structure Unbroken (launcher : Launcher) (start : Pipeline) : Prop where
  run : ∃ st p, Pipeline.run launcher start = .ok st p ∧ st.isFinished = true
  step : ∀ n, Pipeline.step launcher (course launcher start n) =
    .ok (course launcher start (n + 1)).state (course launcher start (n + 1))
  /-- Every stage could be the next one. -/
  stage : ∀ n st, ∃ next q, advance launcher st (course launcher start n) = .ok next q
  answers : ∀ n, (course launcher start n).workspace.ast.store.Answers

/-- No build of a tree whose requests were all carried out is broken off, provided that nobody
observes the spellings. It may be a new one, or one in any state with any reports made and any
commands given before. -/
theorem unbroken_of_carriedOut (requests : List Request) (h : Ast.carriedOut requests = true)
    (hname : (Ast.reached requests).observersOf .cppName = [])
    (hfragment : (Ast.reached requests).observersOf .cppFragment = [])
    (disk : Disk) (compilation : Compilation) (tool : BuildTool) (st : BuildState)
    (launches : List Command) (launcher : Launcher) :
    Unbroken launcher ⟨⟨Ast.reached requests, disk, compilation⟩, tool, st, launches⟩ := by
  have hready : (Ast.reached requests).Ready :=
    ⟨Store.consistent_carriedOut h, hname, hfragment⟩
  have hcourse : ∀ n, (course launcher ⟨⟨Ast.reached requests, disk, compilation⟩, tool, st,
      launches⟩ n).workspace.ast.Ready := ready_course hready launcher
  constructor
  · exact runFor_finishes launcher (hcourse 0) (Nat.le_add_left ..)
  · exact fun n => (course_succ_proceeds (hcourse n)).1
  · intro n st
    obtain ⟨next, q, hrun, -⟩ := advance_proceeds launcher (hcourse n) st
    exact ⟨next, q, hrun⟩
  · exact fun n => (hcourse n).consistent.answers

/-- A module with neither a name nor a file, an entity in every role at once under it, and a
primitive type that is ended after it was registered. -/
def oddmentsRun : List Request :=
  [.create, .create, .create, .insert .module ⟨0, 0⟩ .executable,
    .insert .module ⟨1, 0⟩ .staticLibrary, .insert .typeInfo ⟨1, 0⟩ ⟨"Jack", .classType⟩,
    .insert .classTag ⟨1, 0⟩ (), .insert .structTag ⟨1, 0⟩ (), .insert .functionTag ⟨1, 0⟩ (),
    .insert .variableTag ⟨1, 0⟩ (), .insert .identifier ⟨1, 0⟩ "jack",
    .insert .parameter ⟨1, 0⟩ "Jack", .addChild ⟨0, 0⟩ ⟨1, 0⟩,
    .insert .primitive ⟨2, 0⟩ .bool, .edit (.setUnique .primitives [(.bool, ⟨2, 0⟩)]),
    .edit (.destroy ⟨2, 0⟩)]

def oddments : Pipeline :=
  .new (Ast.reached oddmentsRun) .empty (.ofProject (.ofString "Oddments")) .standard

theorem unbroken_oddments :
    Ast.carriedOut oddmentsRun = true ∧
    (Ast.reached oddmentsRun).observersOf .cppName = [] ∧
    (Ast.reached oddmentsRun).observersOf .cppFragment = [] ∧
    (course oneShot oddments 5).state = .failed .descriptorGeneration ∧
    Unbroken oneShot oddments := by
  have hrun : Ast.carriedOut oddmentsRun = true := by decide +kernel
  have hname : (Ast.reached oddmentsRun).observersOf .cppName = [] :=
    List.isEmpty_iff.mp (by decide +kernel)
  have hfragment : (Ast.reached oddmentsRun).observersOf .cppFragment = [] :=
    List.isEmpty_iff.mp (by decide +kernel)
  refine ⟨hrun, hname, hfragment, by decide +kernel, ?_⟩
  exact unbroken_of_carriedOut oddmentsRun hrun hname hfragment .empty
    (.new (.ofProject (.ofString "Oddments"))) .standard .idle [] oneShot

end Pipeline

end ModuleCompiler
